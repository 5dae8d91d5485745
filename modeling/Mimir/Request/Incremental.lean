import Mathlib.Data.List.TakeWhile
import Mimir.Request.MmKeys

/-! Hashing blocks as tokens come, and hashing all tokens at once. -/

namespace Mimir

open Python Theory List

/-- At the start of the block in which the prompt ends, the last input has ended before, or it is the only one
that is not over. -/
def EngineCoreRequest.LastAlone (blockSize : Nat) (req : EngineCoreRequest) : Prop :=
  let start := req.promptTokenIds.length / blockSize * blockSize
  start = 0 ∨ ∀ last, req.mmFeatures.getLast? = some last → last.offset + last.length < start ∨
    ((∀ m ∈ req.mmFeatures.dropLast, m.isOver start = true) ∧ last.isOver start = false)

variable {start stop : Nat}

/-- Inputs that all end in the block or before it: those that reach into it have their keys in it. -/
theorem mmExtraHashKeysFrom_keys {items : List MmFeature}
    (within : ∀ m ∈ items, m.offset < stop ∧ m.offset + m.length ≤ stop) (idx : Nat) :
    (mmExtraHashKeysFrom start stop items idx).1 =
      mmKeys (items.filter fun m => decide (start ≤ m.offset + m.length)) := by
  induction items generalizing idx with
  | nil => rfl
  | cons m items ih =>
    obtain ⟨here, within⟩ := forall_mem_cons.mp within
    have later := ih within (idx + 1)
    simp only [mmExtraHashKeysFrom]
    rw [if_pos here.1, if_pos here.2]
    split
    · rw [filter_cons_of_neg (by simp only [decide_eq_true_eq]; omega), later]
    · rw [filter_cons_of_pos (by simp only [decide_eq_true_eq]; omega)]
      dsimp only
      rw [later]
      rfl

/-- The inputs from the first on that is not over reach into the block as the last one alone does, exactly when
they are the last one. -/
theorem keys_alone_iff {init : List MmFeature} {last : MmFeature}
    (reaches : start ≤ last.offset + last.length) :
    (mmKeys (((init ++ [last]).dropWhile (·.isOver start)).filter fun m =>
      decide (start ≤ m.offset + m.length)) = mmKeys [last]) ↔
      (∀ m ∈ init, m.isOver start = true) ∧ last.isOver start = false := by
  constructor
  · intro same
    -- The first input that is not over and the last one would be two.
    have sizes := congrArg List.length same
    simp only [mmKeys, length_map, length_singleton] at sizes
    have finished : ∀ m ∈ init, m.isOver start = true := by
      by_contra some
      obtain ⟨m, rest, eq⟩ : ∃ m rest, init.dropWhile (·.isOver start) = m :: rest := by
        cases left : init.dropWhile (·.isOver start) with
        | nil => exact absurd (dropWhile_eq_nil_iff.mp left) some
        | cons m rest => exact ⟨m, rest, rfl⟩
      have first : m.isOver start = false := by
        have head := head?_dropWhile_not (·.isOver start) init
        rw [eq] at head
        simpa using head
      simp only [MmFeature.isOver, decide_eq_false_iff_not] at first
      rw [dropWhile_append, eq] at sizes
      simp only [isEmpty_cons, Bool.false_eq_true, if_false, cons_append] at sizes
      rw [filter_cons_of_pos (by simp only [decide_eq_true_eq]; omega), filter_append,
        filter_cons_of_pos (by simpa using reaches), length_cons, length_append,
        length_cons] at sizes
      omega
    refine ⟨finished, ?_⟩
    cases here : last.isOver start with
    | false => rfl
    | true =>
      have all : ∀ m ∈ init ++ [last], m.isOver start = true := by
        simp only [forall_mem_append, forall_mem_singleton]
        exact ⟨finished, here⟩
      rw [dropWhile_eq_nil_iff.mpr all] at sizes
      simp at sizes
  · rintro ⟨finished, here⟩
    rw [dropWhile_append, dropWhile_eq_nil_iff.mpr finished, isEmpty_nil, if_pos rfl,
      dropWhile_cons_of_neg (by simp [here]), filter_cons_of_pos (by simpa using reaches),
      filter_nil]

namespace Request

variable {H : Type} {hasher : BlockHasher H} {blockSize : Nat} {r r' : Request H}

/-- The keys of a block depend on the inputs. -/
theorem genMmExtraHashKeys_congr (items : r'.mmFeatures = r.mmFeatures) :
    genMmExtraHashKeys r' = genMmExtraHashKeys r := by
  funext start stop idx
  unfold genMmExtraHashKeys
  rw [items]

variable {start i n : Nat} {last : MmFeature} {idx next : Int} {P P' : Nat → List ExtraKey → Prop}

/-- The walk over the inputs never raises. -/
theorem genMmExtraHashKeys_total (start stop : Nat) (valid : -1 ≤ idx) :
    ∃ keys next, genMmExtraHashKeys r start stop idx = .ok (keys, next) ∧ -1 ≤ next := by
  unfold genMmExtraHashKeys
  split
  · exact ⟨_, _, rfl, valid⟩
  · rename_i last isLast
    have some : 0 < r.mmFeatures.length := length_pos_of_mem (mem_of_getLast? isLast)
    split
    · exact ⟨_, _, rfl, valid⟩
    · exact ⟨_, _, bind_eq_ok.mpr ⟨(), require_eq_ok.mpr (by omega), rfl⟩, by omega⟩

/-- Hashing never raises. -/
theorem requestBlockHasher_total (hasher : BlockHasher H) (blockSize : Nat) (r : Request H) :
    ∃ hashes, requestBlockHasher hasher blockSize r = .ok hashes := by
  have loop : ∀ count start (idx : Int) prev, -1 ≤ idx →
      ∃ hashes, hashBlocksFrom hasher blockSize r count start idx prev = .ok hashes := by
    intro count
    induction count with
    | zero => exact fun _ _ _ _ => ⟨[], rfl⟩
    | succ count ih =>
      intro start idx prev valid
      obtain ⟨keys, next, walk, valid'⟩ := genMmExtraHashKeys_total (r := r) start (start + blockSize) valid
      obtain ⟨rest, later⟩ := ih (start + blockSize) next (some (hashBlockTokens hasher prev
        ((r.allTokenIds.drop start).take blockSize) (r.blockKeys start keys))) valid'
      exact ⟨_, bind_eq_ok.mpr ⟨_, bind_eq_ok.mpr ⟨_, walk, rfl⟩, bind_eq_ok.mpr ⟨rest, later, rfl⟩⟩⟩
  exact loop _ _ _ _ (by split <;> omega)

/-- Where the walk over the inputs stands at each block, from the first one on. -/
def walkIndex (blockSize : Nat) (r : Request H) : Nat → Int
  | 0 => 0
  | i + 1 =>
    match genMmExtraHashKeys r (i * blockSize) (i * blockSize + blockSize) (walkIndex blockSize r i) with
    | .ok (_, next) => next
    | .error _ => 0

/-- The keys of the inputs in a block that is reached from the first one. -/
def WalkKeys (blockSize : Nat) (r : Request H) (i : Nat) (keys : List ExtraKey) : Prop :=
  ∃ next, genMmExtraHashKeys r (i * blockSize) (i * blockSize + blockSize) (r.walkIndex blockSize i) =
    .ok (keys, next)

/-- Hashing from the first block on. -/
theorem WalkKeys.step {keys : List ExtraKey} (here : idx = r.walkIndex blockSize i)
    (done : genMmExtraHashKeys r (i * blockSize) (i * blockSize + blockSize) idx = .ok (keys, next)) :
    r.WalkKeys blockSize i keys ∧ next = r.walkIndex blockSize (i + 1) := by
  subst here
  refine ⟨⟨next, done⟩, ?_⟩
  rw [walkIndex, done]

/-- The walk stands at the first input that is not over, as long as the last one has not ended before. -/
theorem walkIndex_eq (isLast : r.mmFeatures.getLast? = some last)
    (reaches : n * blockSize ≤ last.offset + last.length) :
    r.walkIndex blockSize n = (r.mmFeatures.takeWhile (·.isOver (n * blockSize))).length := by
  induction n with
  | zero =>
    rw [takeWhile_isOver_zero]
    rfl
  | succ i ih =>
    rw [Nat.succ_mul] at reaches
    have stands := ih (by omega)
    rw [walkIndex, stands, genMmExtraHashKeys_from isLast (by omega) (by omega) (sliceIndex_natCast _ _)]
    dsimp only
    rw [drop_takeWhile, mmExtraHashKeysFrom_next (by omega), ← length_takeWhile_isOver (by omega),
      Nat.succ_mul]

/-- The keys in the hash of a block when tokens come later: from the last input on in the block in which the
prompt ends. -/
def ResumeKeys (blockSize : Nat) (r : Request H) (i : Nat) (keys : List ExtraKey) : Prop :=
  ∃ next, genMmExtraHashKeys r (i * blockSize) (i * blockSize + blockSize)
    (if i = r.promptTokenIds.length / blockSize ∧ 0 < i then -1 else r.walkIndex blockSize i) =
      .ok (keys, next)

/-- Where hashing resumes, it looks at the last input, and behind the prompt there are no keys. -/
theorem ResumeKeys.step {keys : List ExtraKey} (size : 0 < blockSize)
    (inside : ∀ m ∈ r.mmFeatures, m.offset + m.length ≤ r.promptTokenIds.length)
    (some : 0 < n) (behind : r.promptTokenIds.length / blockSize ≤ n)
    (late : n ≤ i) (here : r.Resumed blockSize n i idx)
    (done : genMmExtraHashKeys r (i * blockSize) (i * blockSize + blockSize) idx = .ok (keys, next)) :
    r.ResumeKeys blockSize i keys ∧ r.Resumed blockSize n (i + 1) next := by
  have beyond : r.promptTokenIds.length < (i + 1) * blockSize := by
    rw [← Nat.div_lt_iff_lt_mul size]
    omega
  refine ⟨?_, .inr beyond⟩
  by_cases far : r.promptTokenIds.length < i * blockSize
  · have before : ∀ m ∈ r.mmFeatures, m.offset + m.length < i * blockSize :=
      fun m member => (inside m member).trans_lt far
    rw [genMmExtraHashKeys_behind _ _ before] at done
    cases done
    exact ⟨_, genMmExtraHashKeys_behind _ _ before⟩
  · obtain ⟨rfl, rfl⟩ := here.resolve_right far
    have block : i = r.promptTokenIds.length / blockSize :=
      Nat.le_antisymm ((Nat.le_div_iff_mul_le size).mpr (by omega)) behind
    refine ⟨next, ?_⟩
    rw [if_pos ⟨block, some⟩]
    exact done

/-- In the block in which the prompt ends, the keys are those of the walk from the first block on exactly when
the last input is alone. -/
theorem ResumeKeys.eq_iff {keys walked : List ExtraKey} (size : 0 < blockSize)
    (inside : ∀ m ∈ r.mmFeatures, m.offset + m.length ≤ r.promptTokenIds.length)
    (some : 0 < r.promptTokenIds.length / blockSize)
    (resumed : r.ResumeKeys blockSize (r.promptTokenIds.length / blockSize) keys)
    (first : r.WalkKeys blockSize (r.promptTokenIds.length / blockSize) walked) :
    keys = walked ↔ r.LastAlone blockSize := by
  obtain ⟨next, resumed⟩ := resumed
  obtain ⟨next', first⟩ := first
  rw [if_pos ⟨rfl, some⟩] at resumed
  have positive : r.promptTokenIds.length / blockSize * blockSize ≠ 0 := (Nat.mul_pos some size).ne'
  have stop := Nat.lt_div_mul_add (a := r.promptTokenIds.length) size
  unfold EngineCoreRequest.LastAlone
  generalize r.promptTokenIds.length / blockSize = n at *
  rcases eq_nil_or_concat' r.mmFeatures with none | ⟨init, last, items⟩
  · rw [genMmExtraHashKeys, none] at resumed first
    cases resumed
    cases first
    simp [none]
  have isLast : r.mmFeatures.getLast? = Option.some last := by rw [items, getLast?_concat]
  have within : ∀ m ∈ r.mmFeatures, m.offset < n * blockSize + blockSize ∧
      m.offset + m.length ≤ n * blockSize + blockSize := by
    intro m member
    have := inside m member
    omega
  by_cases ended : last.offset + last.length < n * blockSize
  · -- Both end at once.
    rw [genMmExtraHashKeys, isLast] at resumed first
    dsimp only at resumed first
    rw [if_pos ended] at resumed first
    cases resumed
    cases first
    simp [isLast, ended]
  · have reaches : n * blockSize ≤ last.offset + last.length := by omega
    rw [walkIndex_eq isLast reaches, genMmExtraHashKeys_from isLast reaches (by omega)
      (sliceIndex_natCast _ _)] at first
    have sized : r.mmFeatures.length = init.length + 1 := by rw [items, length_append]; rfl
    rw [genMmExtraHashKeys_from (k := init.length) isLast reaches (by omega) (by simp [sliceIndex, sized])]
      at resumed
    rw [drop_takeWhile, mmExtraHashKeysFrom_keys fun m member => within m (dropWhile_subset _ member)] at first
    rw [mmExtraHashKeysFrom_keys fun m member => within m (mem_of_mem_drop member), items, drop_left,
      filter_cons_of_pos (by simpa using reaches), filter_nil] at resumed
    cases resumed
    cases first
    rw [eq_comm, items, keys_alone_iff reaches]
    simp [positive, ended]

/-- Requests with the same tokens, adapter and salt, and the same keys of inputs, have the same hashes. -/
theorem HashedBy.unique (first : r.HashedBy hasher blockSize P n) (second : r'.HashedBy hasher blockSize P' n)
    (same : ∀ i < n, ∀ a b, P i a → P' i b → a = b)
    (tokens : r'.allTokenIds = r.allTokenIds) (lora : r'.loraRequest = r.loraRequest)
    (salt : r'.cacheSalt = r.cacheSalt) : r.blockHashes = r'.blockHashes := by
  obtain ⟨xs, eq, length, _, each⟩ := first
  obtain ⟨ys, eq', length', _, each'⟩ := second
  rw [eq, eq']
  congr 1
  apply ext_getElem?
  intro i
  by_cases below : i < n
  · obtain ⟨mm, keyed, entry⟩ := each i below
    obtain ⟨mm', keyed', entry'⟩ := each' i below
    rw [entry, entry', same i below mm mm' keyed keyed', tokens, blockKeys_congr lora salt]
  · rw [getElem?_eq_none (by omega), getElem?_eq_none (by omega)]

/-- Without collisions the same hashes mean the same keys of inputs. -/
theorem HashedBy.keys
    (injective : Function.Injective hasher.hashFunction) (first : r.HashedBy hasher blockSize P n)
    (second : r'.HashedBy hasher blockSize P' n) (lora : r'.loraRequest = r.loraRequest)
    (salt : r'.cacheSalt = r.cacheSalt) (hashes : r.blockHashes = r'.blockHashes) (below : i < n) :
    ∃ mm, P i mm ∧ P' i mm := by
  obtain ⟨xs, eq, length, _, each⟩ := first
  obtain ⟨ys, eq', length', _, each'⟩ := second
  obtain ⟨mm, keyed, entry⟩ := each i below
  obtain ⟨mm', keyed', entry'⟩ := each' i below
  obtain ⟨h, here⟩ : ∃ h, r.blockHashes[i]? = some h :=
    ⟨_, getElem?_eq_getElem (by rw [eq, length_chain]; omega)⟩
  have there := here
  rw [hashes, eq'] at there
  rw [eq] at here
  obtain ⟨_, _, same⟩ := chain_getElem?_injective injective here there
  have agree : xs[i]? = ys[i]? := by
    rw [← getElem?_take_of_lt (Nat.lt_succ_self i), same, getElem?_take_of_lt (Nat.lt_succ_self i)]
  rw [entry, entry', Option.some.injEq, Prod.mk.injEq, blockKeys_congr lora salt] at agree
  have lists := append_cancel_left (append_cancel_right (blockKeys_inj agree.2))
  exact ⟨mm, keyed, lists ▸ keyed'⟩

/-- Creating a request with parameters never raises. -/
theorem create_total (hasher : BlockHasher H) (blockSize : Nat) {req : EngineCoreRequest}
    (valid : req.poolingParams = true ∨ req.samplingParams ≠ none) :
    ∃ r, Request.create (requestBlockHasher hasher blockSize) req = .ok r := by
  obtain ⟨r, built⟩ : ∃ r : Request H, Request.fromEngineCoreRequest req = .ok r := by
    unfold fromEngineCoreRequest
    split
    · exact ⟨_, rfl⟩
    · rename_i sampled
      cases params : req.samplingParams with
      | none => exact absurd params (valid.resolve_left sampled)
      | some => exact ⟨_, rfl⟩
  obtain ⟨hashes, hashed⟩ := requestBlockHasher_total hasher blockSize r
  exact ⟨_, bind_eq_ok.mpr ⟨r, built, bind_eq_ok.mpr ⟨hashes, hashed, rfl⟩⟩⟩

/-- Whatever is appended, each hash has these keys. -/
theorem HashedBy.appendAll (size : 0 < blockSize) {base : Request H}
    (inside : ∀ m ∈ base.mmFeatures, m.offset + m.length ≤ base.promptTokenIds.length)
    (pieces : List (List TokenId)) (sent : r.toEngineCoreRequest = base.toEngineCoreRequest)
    (hashed : r.HashedBy hasher blockSize (base.ResumeKeys blockSize) (r.numTokens / blockSize)) :
    ∃ r', pieces.foldlM (appendOutputTokenIds (requestBlockHasher hasher blockSize)) r = .ok r' ∧
      r'.toEngineCoreRequest = base.toEngineCoreRequest ∧
      r'.outputTokenIds = r.outputTokenIds ++ pieces.flatten ∧
      r'.HashedBy hasher blockSize (base.ResumeKeys blockSize) (r'.numTokens / blockSize) := by
  induction pieces generalizing r with
  | nil => exact ⟨r, rfl, sent, by simp, hashed⟩
  | cons piece pieces ih =>
    obtain ⟨hashes, more⟩ := requestBlockHasher_total hasher blockSize
      { r with outputTokenIds := r.outputTokenIds ++ piece }
    obtain ⟨r₁, done, sent₁, output⟩ : ∃ r₁,
        appendOutputTokenIds (requestBlockHasher hasher blockSize) r piece = .ok r₁ ∧
        r₁.toEngineCoreRequest = base.toEngineCoreRequest ∧
        r₁.outputTokenIds = r.outputTokenIds ++ piece :=
      ⟨_, bind_eq_ok.mpr ⟨hashes, more, rfl⟩, sent, rfl⟩
    have walk : genMmExtraHashKeys r = genMmExtraHashKeys base :=
      genMmExtraHashKeys_congr (congrArg (·.mmFeatures) sent)
    have behind : base.promptTokenIds.length / blockSize ≤ r.numTokens / blockSize := by
      refine Nat.div_le_div_right ?_
      rw [← congrArg (·.promptTokenIds) sent]
      unfold numTokens allTokenIds
      rw [length_append]
      omega
    have hashed₁ : r₁.HashedBy hasher blockSize (base.ResumeKeys blockSize) (r₁.numTokens / blockSize) := by
      rcases Nat.eq_zero_or_pos (r.numTokens / blockSize) with first | later
      · refine hashed.appended done (Q := fun i idx => idx = base.walkIndex blockSize i) ?_
          fun i idx keys next _ here gen => ?_
        · rw [first]
          rfl
        · rw [walk] at gen
          obtain ⟨⟨next', keyed⟩, onward⟩ := WalkKeys.step here gen
          refine ⟨fun _ => ⟨next', ?_⟩, onward⟩
          rw [if_neg (by omega)]
          exact keyed
      · refine hashed.appended done (Q := base.Resumed blockSize (r.numTokens / blockSize)) ?_
          fun i idx keys next late here gen => ?_
        · rw [if_pos later]
          exact .inl ⟨rfl, rfl⟩
        · rw [walk] at gen
          exact (ResumeKeys.step size inside later behind late here gen).imp_left fun keyed _ => keyed
    obtain ⟨r', rest, sent', output', hashed'⟩ := ih sent₁ hashed₁
    refine ⟨r', ?_, sent', ?_, hashed'⟩
    · rw [foldlM_cons]
      exact bind_eq_ok.mpr ⟨r₁, done, rest⟩
    · rw [output', output, flatten_cons, append_assoc]

/-- Tokens appended in any pieces give the hashes of a request with all of them in its prompt exactly when the last
input is alone in the block in which the prompt ends, or that block is not filled. -/
theorem incremental_hashes_eq_iff (hasher : BlockHasher H) (size : 0 < blockSize) {req : EngineCoreRequest}
    (valid : req.poolingParams = true ∨ req.samplingParams ≠ none)
    (inside : ∀ m ∈ req.mmFeatures, m.offset + m.length ≤ req.promptTokenIds.length)
    (pieces : List (List TokenId)) :
    ∃ r₀ r fresh, Request.create (requestBlockHasher hasher blockSize) req = .ok r₀ ∧
      pieces.foldlM (appendOutputTokenIds (requestBlockHasher hasher blockSize)) r₀ = .ok r ∧
      Request.create (requestBlockHasher hasher blockSize)
        { req with promptTokenIds := req.promptTokenIds ++ pieces.flatten } = .ok fresh ∧
      (req.LastAlone blockSize ∨ (req.promptTokenIds.length + pieces.flatten.length) / blockSize =
        req.promptTokenIds.length / blockSize → r.blockHashes = fresh.blockHashes) ∧
      (Function.Injective hasher.hashFunction → r.blockHashes = fresh.blockHashes →
        req.LastAlone blockSize ∨ (req.promptTokenIds.length + pieces.flatten.length) / blockSize =
          req.promptTokenIds.length / blockSize) := by
  obtain ⟨r₀, created⟩ := create_total hasher blockSize valid
  obtain ⟨fresh, created'⟩ : ∃ fresh, Request.create (requestBlockHasher hasher blockSize)
      { req with promptTokenIds := req.promptTokenIds ++ pieces.flatten } = .ok fresh :=
    create_total hasher blockSize valid
  have new := Request.create_new _ created
  have new' := Request.create_new _ created'
  have items : fresh.mmFeatures = r₀.mmFeatures :=
    (congrArg (·.mmFeatures) new'.sent).trans (congrArg (·.mmFeatures) new.sent).symm
  have walk : genMmExtraHashKeys fresh = genMmExtraHashKeys r₀ := genMmExtraHashKeys_congr items
  have count₀ : r₀.numTokens = r₀.promptTokenIds.length := by
    unfold numTokens allTokenIds
    rw [new.output, append_nil]
  -- The blocks of the prompt are hashed before any token comes.
  have first : r₀.HashedBy hasher blockSize (r₀.ResumeKeys blockSize) (r₀.numTokens / blockSize) :=
    HashedBy.created created (Q := fun i idx => idx = r₀.walkIndex blockSize i) rfl
      fun i _ _ _ here gen => by
        obtain ⟨⟨next', keyed⟩, onward⟩ := WalkKeys.step here gen
        refine ⟨fun below => ⟨next', ?_⟩, onward⟩
        rw [if_neg (by rw [count₀] at below; omega)]
        exact keyed
  have whole : fresh.HashedBy hasher blockSize (r₀.WalkKeys blockSize) (fresh.numTokens / blockSize) :=
    HashedBy.created created' (Q := fun i idx => idx = r₀.walkIndex blockSize i) rfl
      fun _ _ _ _ here gen => (WalkKeys.step here (by rw [← walk]; exact gen)).imp_left fun keyed _ => keyed
  rw [← new.sent] at inside ⊢
  obtain ⟨r, appended, sent, output, hashed⟩ := HashedBy.appendAll size inside pieces rfl first
  have tokens : fresh.allTokenIds = r.allTokenIds := by
    unfold allTokenIds
    rw [sent, output, new.sent, new'.sent, new.output, new'.output]
    simp
  have count : fresh.numTokens = r.numTokens := by
    unfold numTokens
    rw [tokens]
  have total : r.numTokens = r₀.promptTokenIds.length + pieces.flatten.length := by
    unfold numTokens allTokenIds
    rw [sent, output, new.output, length_append, nil_append]
  rw [count] at whole
  have lora : fresh.loraRequest = r.loraRequest := by rw [sent, new.sent, new'.sent]
  have salt : fresh.cacheSalt = r.cacheSalt := by rw [sent, new.sent, new'.sent]
  rw [← total]
  refine ⟨r₀, r, fresh, by rw [new.sent]; exact created, appended, by rw [new.sent]; exact created',
    fun alone => ?_,
    fun injective same => ?_⟩
  · refine hashed.unique whole (fun i below a b resumed walked => ?_) tokens lora salt
    by_cases last : i = r₀.promptTokenIds.length / blockSize ∧ 0 < i
    · obtain ⟨rfl, some⟩ := last
      exact (ResumeKeys.eq_iff size inside some resumed walked).mpr (alone.resolve_right (by omega))
    · obtain ⟨_, resumed⟩ := resumed
      obtain ⟨_, walked⟩ := walked
      rw [if_neg last, walked] at resumed
      cases resumed
      rfl
  · by_cases filled : r.numTokens / blockSize = r₀.promptTokenIds.length / blockSize
    · exact .inr filled
    · left
      rcases Nat.eq_zero_or_pos (r₀.promptTokenIds.length / blockSize) with none | some
      · exact .inl (by rw [none, Nat.zero_mul])
      · have more : r₀.promptTokenIds.length / blockSize ≤ r.numTokens / blockSize :=
          Nat.div_le_div_right (by omega)
        obtain ⟨mm, resumed, walked⟩ := hashed.keys injective whole lora salt same
          (i := r₀.promptTokenIds.length / blockSize) (by omega)
        exact (ResumeKeys.eq_iff size inside some resumed walked).mp rfl

/-- A picture over the border of the block in which the prompt ends. -/
theorem incremental_hashes_eq_iff_border :
    ∃ r₀ r fresh, Request.create (requestBlockHasher freeHasher 2)
        (pictureRequest [5, 5, 5] [⟨"cat", 1, 2⟩] none) = .ok r₀ ∧
      [[7], [8, 9]].foldlM (appendOutputTokenIds (requestBlockHasher freeHasher 2)) r₀ = .ok r ∧
      Request.create (requestBlockHasher freeHasher 2)
        (pictureRequest [5, 5, 5, 7, 8, 9] [⟨"cat", 1, 2⟩] none) = .ok fresh ∧
      r.blockHashes = fresh.blockHashes := by
  have alone : (pictureRequest [5, 5, 5] [⟨"cat", 1, 2⟩] none).LastAlone 2 := by
    refine .inr fun last isLast => .inr ⟨by decide, ?_⟩
    cases isLast
    decide
  obtain ⟨r₀, r, fresh, created, appended, created', equal, _⟩ := @incremental_hashes_eq_iff _ 2 freeHasher
    (by decide) (pictureRequest [5, 5, 5] [⟨"cat", 1, 2⟩] none) (.inr (by simp [pictureRequest])) (by decide)
    [[7], [8, 9]]
  exact ⟨r₀, r, fresh, created, appended, created', equal (.inl alone)⟩

/-- Two pictures in the block in which the prompt ends, or one that ends at its start: the hashes differ from
those of a request with the same tokens in its prompt. -/
theorem incremental_hashes_ne :
    (∃ r fresh, pictured 4 (pictureRequest [5, 5, 5, 5, 5, 5] [⟨"cat", 4, 1⟩, ⟨"dog", 5, 1⟩] none) [7, 8] = .ok r ∧
      pictured 4 (pictureRequest [5, 5, 5, 5, 5, 5, 7, 8] [⟨"cat", 4, 1⟩, ⟨"dog", 5, 1⟩] none) [] = .ok fresh ∧
      r.blockHashes ≠ fresh.blockHashes) ∧
    ∃ r fresh, pictured 4 (pictureRequest [5, 5, 5, 5] [⟨"cat", 0, 4⟩] none) [6, 7, 8, 9] = .ok r ∧
      pictured 4 (pictureRequest [5, 5, 5, 5, 6, 7, 8, 9] [⟨"cat", 0, 4⟩] none) [] = .ok fresh ∧
      r.blockHashes ≠ fresh.blockHashes := by
  have evaluate : ∀ {a b : Except Err (Request FreeHash)}, (do
        let r ← a
        let fresh ← b
        .ok (decide (r.blockHashes ≠ fresh.blockHashes))) = (.ok true : Except Err Bool) →
      ∃ r fresh, a = .ok r ∧ b = .ok fresh ∧ r.blockHashes ≠ fresh.blockHashes := by
    intro a b evaluated
    obtain ⟨r, first, tail⟩ := bind_eq_ok.mp evaluated
    obtain ⟨fresh, second, eq⟩ := bind_eq_ok.mp tail
    rw [Except.ok.injEq, decide_eq_true_eq] at eq
    exact ⟨r, fresh, first, second, eq⟩
  exact ⟨evaluate (by decide +kernel), evaluate (by decide +kernel)⟩

end Request

end Mimir
