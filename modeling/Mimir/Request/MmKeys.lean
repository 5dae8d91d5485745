import Mathlib.Data.List.TakeWhile
import Mimir.Request.ChainLaws

/-! What equal block hashes of two requests say about their tokens, adapters, salts and inputs. -/

namespace Mimir

open Python Theory List

variable {start stop n bound : Nat} {a m : MmFeature}

/-- Multimodal inputs in prompt order that do not overlap. -/
def MmOrdered (items : List MmFeature) : Prop :=
  items.Pairwise fun a b => a.offset + a.length ≤ b.offset

/-- The input has ended by a position, so no later block is asked about it again. -/
def MmFeature.isOver (position : Nat) (m : MmFeature) : Bool :=
  decide (m.offset < position ∧ m.offset + m.length ≤ position)

/-- The input starts before the end of a block, and is not over at its start. -/
def MmFeature.inBlock (start stop : Nat) (m : MmFeature) : Bool :=
  decide (m.offset < stop) && !m.isOver start

/-- The input concerns the `i`-th block. -/
abbrev MmFeature.ofBlock (blockSize i : Nat) (m : MmFeature) : Bool :=
  m.inBlock (i * blockSize) (i * blockSize + blockSize)

/-- The keys of a list of inputs. -/
def mmKeys (items : List MmFeature) : List ExtraKey := items.map fun m => .str m.identifier

theorem drop_takeWhile {α : Type} (p : α → Bool) (l : List α) :
    l.drop (l.takeWhile p).length = l.dropWhile p := by
  conv_lhs => enter [2]; rw [← takeWhile_append_dropWhile (p := p) (l := l)]
  rw [drop_left]

theorem sliceIndex_natCast (n k : Nat) : sliceIndex n (k : Int) = k := by
  simp [sliceIndex]

/-- The walk passes the inputs that are over at the end of the block, up to the first that is not. -/
theorem mmExtraHashKeysFrom_next (forward : start ≤ stop) (items : List MmFeature)
    (idx : Nat) : (mmExtraHashKeysFrom start stop items idx).2 =
      idx + (items.takeWhile (·.isOver stop)).length := by
  induction items generalizing idx with
  | nil => rfl
  | cons m items ih =>
    have later := ih (idx + 1)
    simp only [mmExtraHashKeysFrom]
    -- An input that is over is passed, whether or not its key is taken.
    cases here : m.isOver stop with
    | true =>
      simp only [MmFeature.isOver, decide_eq_true_eq] at here
      rw [takeWhile_cons_of_pos (by simpa [MmFeature.isOver] using here), length_cons,
        if_pos here.1]
      split
      · omega
      · rw [if_pos here.2]
        dsimp only
        omega
    | false =>
      simp only [MmFeature.isOver, decide_eq_false_iff_not] at here
      rw [takeWhile_cons_of_neg (by simpa [MmFeature.isOver] using here), length_nil]
      split
      · rw [if_neg (by omega), if_neg (by omega)]
        rfl
      · rfl

/-- Where the walk stands at the start of a block, it goes on from there: what was over stays over. -/
theorem length_takeWhile_isOver (forward : start ≤ stop) (items : List MmFeature) :
    (items.takeWhile (·.isOver stop)).length = (items.takeWhile (·.isOver start)).length +
      ((items.dropWhile (·.isOver start)).takeWhile (·.isOver stop)).length := by
  conv_lhs => rw [← takeWhile_append_dropWhile (p := (·.isOver start)) (l := items)]
  rw [takeWhile_append_of_pos, length_append]
  intro m member
  have early := mem_takeWhile_imp member
  simp only [MmFeature.isOver, decide_eq_true_eq] at early ⊢
  omega

/-- No input is over at the start. -/
theorem takeWhile_isOver_zero (items : List MmFeature) (blockSize : Nat) :
    items.takeWhile (·.isOver (0 * blockSize)) = [] := by
  rw [takeWhile_eq_nil_iff]
  simp [MmFeature.isOver]

namespace MmOrdered

variable {items : List MmFeature}

variable (ordered : MmOrdered items)

include ordered

/-- Behind the first input that is not over, none is. -/
theorem isOver_rest (position : Nat) : ∀ m ∈ items.dropWhile (·.isOver position), m.isOver position = false := by
  induction items with
  | nil => simp
  | cons m rest ih =>
    obtain ⟨first, later⟩ := pairwise_cons.mp ordered
    cases here : m.isOver position with
    | true =>
      rw [dropWhile_cons_of_pos here]
      exact ih later
    | false =>
      rw [dropWhile_cons_of_neg (by simp [here])]
      intro x member
      rcases mem_cons.mp member with rfl | behind
      · exact here
      · -- What follows starts behind the end of an input that is not over.
        have := first x behind
        simp only [MmFeature.isOver, decide_eq_false_iff_not] at here ⊢
        omega

/-- The walk collects the inputs of the block. -/
theorem walk (idx : Nat) : (mmExtraHashKeysFrom start stop items idx).1 =
    mmKeys (items.filter fun m => decide (m.offset < stop ∧ start ≤ m.offset + m.length)) := by
  -- The induction follows the walk; it stops where all later inputs are behind the block.
  induction items generalizing idx with
  | nil => rfl
  | cons m rest ih =>
    obtain ⟨first, later⟩ := pairwise_cons.mp ordered
    have beyond : stop ≤ m.offset + m.length →
        rest.filter (fun m => decide (m.offset < stop ∧ start ≤ m.offset + m.length)) = [] := by
      intro far
      rw [filter_eq_nil_iff]
      intro x member
      have behind := first x member
      simp only [decide_eq_true_eq]
      omega
    have next := ih later (idx + 1)
    simp only [mmExtraHashKeysFrom]
    by_cases inside : m.offset < stop ∧ start ≤ m.offset + m.length
    · rw [filter_cons_of_pos (by simpa using inside), if_pos inside.1, if_neg (by omega)]
      split
      · dsimp only
        rw [next]
        rfl
      · rw [beyond (by omega)]
        rfl
    · rw [filter_cons_of_neg (by simpa using inside)]
      split
      · rw [if_pos (by omega), next]
      · rw [beyond (by omega)]
        rfl

/-- Among the inputs from the first on that is not over, the walk collects those of the block. -/
theorem filter_rest : (items.dropWhile (·.isOver start)).filter
      (fun m => decide (m.offset < stop ∧ start ≤ m.offset + m.length)) =
    items.filter (·.inBlock start stop) := by
  have none : (items.takeWhile (·.isOver start)).filter (·.inBlock start stop) = [] := by
    rw [filter_eq_nil_iff]
    intro m member
    simp [MmFeature.inBlock, mem_takeWhile_imp member]
  conv_rhs => rw [← takeWhile_append_dropWhile (p := (·.isOver start)) (l := items), filter_append, none]
  apply filter_congr
  intro m member
  have past := ordered.isOver_rest start m member
  rw [MmFeature.inBlock, past, Bool.not_false, Bool.and_true, decide_eq_decide]
  simp only [MmFeature.isOver, decide_eq_false_iff_not] at past
  omega

/-- When the last input ends before a position, all of them do. -/
theorem all_before {last : MmFeature} {position : Nat}
    (isLast : items.getLast? = some last) (before : last.offset + last.length < position) :
    ∀ m ∈ items, m.offset + m.length < position := by
  intro m member
  obtain ⟨init, rfl⟩ := getLast?_eq_some_iff.mp isLast
  rcases mem_append.mp member with early | here
  · have behind := (pairwise_append.mp ordered).2.2 m early last (mem_singleton.mpr rfl)
    omega
  · cases mem_singleton.mp here
    exact before

/-- An input ends before a later one starts. -/
theorem ends_before {k : Nat} (earlier : k < n) {x y : MmFeature} (first : items[k]? = some x)
    (second : items[n]? = some y) : x.offset + x.length ≤ y.offset := by
  obtain ⟨inX, rfl⟩ := List.getElem?_eq_some_iff.mp first
  obtain ⟨inY, rfl⟩ := List.getElem?_eq_some_iff.mp second
  exact pairwise_iff_getElem.mp ordered k n inX inY earlier

/-- The inputs that start before a position are the first ones. -/
theorem getElem?_filter (bound n : Nat) :
    (items.filter fun m => decide (m.offset < bound))[n]? =
      items[n]?.filter fun m => decide (m.offset < bound) := by
  induction items generalizing n with
  | nil => rfl
  | cons m rest ih =>
    obtain ⟨first, later⟩ := pairwise_cons.mp ordered
    by_cases small : m.offset < bound
    · rw [filter_cons_of_pos (by simpa using small)]
      cases n with
      | zero => exact (Option.filter_some_pos (by simpa using small)).symm
      | succ n => exact ih later n
    · -- Nothing behind an input that starts too late starts early enough.
      have none : ∀ x ∈ m :: rest, ¬ decide (x.offset < bound) = true := by
        intro x member
        rcases mem_cons.mp member with rfl | behind
        · simpa using small
        · have := first x behind
          simp only [decide_eq_true_eq]
          omega
      rw [filter_eq_nil_iff.mpr none, getElem?_nil, eq_comm, Option.filter_eq_none_iff]
      exact fun x found => none x (mem_of_getElem? found)

end MmOrdered

section Places

/-- An input that starts in a block belongs to it. -/
theorem MmFeature.inBlock_of_starts (after : start ≤ m.offset)
    (before : m.offset < stop) : m.inBlock start stop = true := by
  simp only [inBlock, isOver, Bool.and_eq_true, decide_eq_true_eq, Bool.not_eq_eq_eq_not, Bool.not_true,
    decide_eq_false_iff_not]
  omega

variable {items : List MmFeature}

/-- An input stands in the list of its block behind those of the inputs before it. -/
theorem getElem?_filter_take {α : Type} {xs : List α} {keep : α → Bool} {a : α}
    (found : xs[n]? = some a) (kept : keep a = true) :
    (xs.filter keep)[((xs.take n).filter keep).length]? = some a := by
  induction xs generalizing n with
  | nil => cases found
  | cons x rest ih =>
    cases n with
    | zero =>
      cases found
      simp [kept]
    | succ n =>
      rw [take_succ_cons, filter_cons, filter_cons]
      split
      · exact ih found
      · exact ih found

/-- The inputs of a block are among those that start before any later position. -/
theorem filter_inBlock (below : stop ≤ bound) :
    (items.filter fun m => decide (m.offset < bound)).filter (·.inBlock start stop) =
      items.filter (·.inBlock start stop) := by
  rw [filter_filter]
  apply filter_congr
  intro m _
  cases inside : m.inBlock start stop with
  | false => rfl
  | true =>
    simp only [MmFeature.inBlock, Bool.and_eq_true, decide_eq_true_eq] at inside
    simp only [Bool.true_and, decide_eq_true_eq]
    omega

end Places

namespace Request

variable {H : Type} {hasher : BlockHasher H} {blockSize : Nat} {r r' : Request H}

/-- Where the walk stands at the start of a block that was reached from the first one: behind the
inputs that are over, unless all inputs ended earlier. -/
def Walked (r : Request H) (start : Nat) (mmIdx : Int) : Prop :=
  mmIdx = (r.mmFeatures.takeWhile (·.isOver start)).length ∨
    ∀ m ∈ r.mmFeatures, m.offset + m.length < start

variable {i : Nat} {idx mmIdx next : Int} {keys mm : List ExtraKey} {r₁ r₂ : Request H}

/-- Behind all inputs there are no keys. -/
theorem genMmExtraHashKeys_behind (stop : Nat) (idx : Int)
    (before : ∀ m ∈ r.mmFeatures, m.offset + m.length < start) :
    genMmExtraHashKeys r start stop idx = .ok ([], idx) := by
  unfold genMmExtraHashKeys
  split
  · rfl
  · rename_i last isLast
    exact if_pos (before last (mem_of_getLast? isLast))

/-- The walk from one input on, as long as the last one has not ended before the block. -/
theorem genMmExtraHashKeys_from {k : Nat} {last : MmFeature}
    (isLast : r.mmFeatures.getLast? = some last) (reaches : start ≤ last.offset + last.length)
    (valid : -idx ≤ r.mmFeatures.length) (index : sliceIndex r.mmFeatures.length idx = k) :
    genMmExtraHashKeys r start stop idx =
      .ok ((mmExtraHashKeysFrom start stop (r.mmFeatures.drop k) k).1,
        ((mmExtraHashKeysFrom start stop (r.mmFeatures.drop k) k).2 : Int)) := by
  unfold genMmExtraHashKeys
  rw [isLast, index]
  dsimp only
  rw [if_neg (by omega)]
  exact bind_eq_ok.mpr ⟨(), require_eq_ok.mpr valid, rfl⟩

/-- Walking on from the first block, each block gets the keys of its inputs. -/
theorem genMmExtraHashKeys_walked (ordered : MmOrdered r.mmFeatures)
    (forward : start ≤ stop) (walked : r.Walked start mmIdx)
    (done : genMmExtraHashKeys r start stop mmIdx = .ok (keys, next)) :
    keys = mmKeys (r.mmFeatures.filter (·.inBlock start stop)) ∧ r.Walked stop next := by
  by_cases before : ∀ m ∈ r.mmFeatures, m.offset + m.length < start
  · -- Inputs that ended before the block have no keys in it, and none later.
    have none : r.mmFeatures.filter (·.inBlock start stop) = [] := by
      rw [filter_eq_nil_iff]
      intro m member
      have ended := before m member
      simp only [MmFeature.inBlock, MmFeature.isOver, Bool.and_eq_true, decide_eq_true_eq,
        Bool.not_eq_eq_eq_not, Bool.not_true, decide_eq_false_iff_not]
      omega
    rw [genMmExtraHashKeys_behind _ _ before] at done
    cases done
    rw [none]
    exact ⟨rfl, .inr fun m member => (before m member).trans_le forward⟩
  · cases isLast : r.mmFeatures.getLast? with
    | none =>
      rw [getLast?_eq_none_iff] at isLast
      simp [isLast] at before
    | some last =>
      have reaches : start ≤ last.offset + last.length :=
        not_lt.mp fun early => before (ordered.all_before isLast early)
      have here := walked.resolve_right before
      have rest : MmOrdered (r.mmFeatures.dropWhile (·.isOver start)) := ordered.sublist (dropWhile_sublist _)
      rw [here, genMmExtraHashKeys_from isLast reaches (by omega) (sliceIndex_natCast _ _), drop_takeWhile,
        rest.walk, ordered.filter_rest,
        mmExtraHashKeysFrom_next forward, ← length_takeWhile_isOver forward] at done
      cases done
      exact ⟨rfl, .inl rfl⟩

/-- Hashing that resumes looks at the last input only. -/
theorem genMmExtraHashKeys_resumed
    (done : genMmExtraHashKeys r start stop (-1) = .ok (keys, next)) {last : MmFeature}
    (isLast : r.mmFeatures.getLast? = some last) (reached : last.offset < stop)
    (open' : start ≤ last.offset) : keys = [.str last.identifier] := by
  obtain ⟨init, eq⟩ := getLast?_eq_some_iff.mp isLast
  have sized : r.mmFeatures.length = init.length + 1 := by rw [eq, length_append]; rfl
  rw [genMmExtraHashKeys_from (k := init.length) isLast (by omega) (by omega) (by simp [sliceIndex, sized]),
    eq, drop_left, mmExtraHashKeysFrom, if_pos reached, if_neg (by omega)] at done
  cases done
  split <;> rfl

/-- All keys of multimodal inputs are strings. -/
theorem mmExtraHashKeysFrom_str {start idx : Nat} {items : List MmFeature} :
    ∀ k ∈ (mmExtraHashKeysFrom start stop items idx).1, ∃ text, k = .str text := by
  induction items generalizing idx with
  | nil =>
    intro k member
    cases member
  | cons m rest ih =>
    unfold mmExtraHashKeysFrom
    intro k member
    split at member
    · split at member
      · exact ih k member
      · split at member
        · rcases mem_cons.mp member with rfl | later
          · exact ⟨_, rfl⟩
          · exact ih k later
        · cases mem_singleton.mp member
          exact ⟨_, rfl⟩
    · cases member

theorem genMmExtraHashKeys_str (done : genMmExtraHashKeys r start stop mmIdx = .ok (keys, next)) :
    ∀ k ∈ keys, ∃ text, k = .str text := by
  unfold genMmExtraHashKeys at done
  split at done
  · cases done
    exact fun k member => (not_mem_nil member).elim
  · split at done
    · cases done
      exact fun k member => (not_mem_nil member).elim
    · obtain ⟨_, _, tail⟩ := bind_eq_ok.mp done
      dsimp only at tail
      simp only [Except.ok.injEq, Prod.mk.injEq] at tail
      rw [← tail.1]
      exact mmExtraHashKeysFrom_str

/-- The keys of the inputs in the hash of a block: those of all inputs of the block, unless hashing
resumed at or behind the end of the prompt, where a last input that starts in the block is seen. -/
inductive Keyed (r : Request H) (blockSize i : Nat) : List ExtraKey → Prop
  | whole : Keyed r blockSize i
      (mmKeys (r.mmFeatures.filter (·.ofBlock blockSize i)))
  | resumed (mm : List ExtraKey) (behind : r.promptTokenIds.length / blockSize ≤ i) (later : 0 < i)
      (strings : ∀ k ∈ mm, ∃ text, k = .str text)
      (tail : ∀ last, r.mmFeatures.getLast? = some last → i * blockSize ≤ last.offset →
        last.offset < i * blockSize + blockSize → last.offset < r.promptTokenIds.length →
        mm = [.str last.identifier]) : Keyed r blockSize i mm

theorem Keyed.sent (keyed : r.Keyed blockSize i mm)
    (sent : r'.toEngineCoreRequest = r.toEngineCoreRequest) : r'.Keyed blockSize i mm := by
  have items : r'.mmFeatures = r.mmFeatures := congrArg (·.mmFeatures) sent
  have prompt : r'.promptTokenIds = r.promptTokenIds := congrArg (·.promptTokenIds) sent
  cases keyed with
  | whole => rw [← items]; exact .whole
  | resumed _ behind later strings tail =>
    refine .resumed mm (by rw [prompt]; exact behind) later strings ?_
    rw [items, prompt]
    exact tail

/-- Walking on from the first block. -/
theorem Keyed.walked (ordered : MmOrdered r.mmFeatures) (walked : r.Walked (i * blockSize) mmIdx)
    (done : genMmExtraHashKeys r (i * blockSize) (i * blockSize + blockSize) mmIdx = .ok (keys, next)) :
    r.Keyed blockSize i keys ∧ r.Walked ((i + 1) * blockSize) next := by
  obtain ⟨rfl, onward⟩ := genMmExtraHashKeys_walked ordered (Nat.le_add_right _ _) walked done
  rw [Nat.succ_mul]
  exact ⟨.whole, onward⟩

/-- No input is over at the start. -/
theorem Walked.zero : r.Walked (0 * blockSize) 0 := by
  left
  rw [takeWhile_isOver_zero]
  rfl

/-- Where hashing resumes: at the first block without a hash with the last input, or behind the prompt. -/
def Resumed (r : Request H) (blockSize n i : Nat) (mmIdx : Int) : Prop :=
  (i = n ∧ mmIdx = -1) ∨ r.promptTokenIds.length < i * blockSize

/-- At the first block the last input is looked at; behind the prompt nothing is promised. -/
theorem Keyed.last (some : 0 < n)
    (behind : r.promptTokenIds.length < n * blockSize + blockSize) (late : n ≤ i)
    (here : r.Resumed blockSize n i mmIdx)
    (done : genMmExtraHashKeys r (i * blockSize) (i * blockSize + blockSize) mmIdx = .ok (keys, next)) :
    r.Keyed blockSize i keys ∧ r.Resumed blockSize n (i + 1) next := by
  have reach : n * blockSize ≤ i * blockSize := Nat.mul_le_mul_right _ late
  have before : r.promptTokenIds.length / blockSize ≤ i :=
    Nat.lt_succ_iff.mp (Nat.div_lt_of_lt_mul (by rw [Nat.mul_succ, Nat.mul_comm]; omega))
  refine ⟨.resumed keys before (by omega) (genMmExtraHashKeys_str done)
    fun last isLast after reached inside => ?_, .inr ?_⟩
  · rcases here with ⟨_, rfl⟩ | beyond
    · exact genMmExtraHashKeys_resumed done isLast reached after
    · omega
  · rw [Nat.succ_mul]
    omega

/-- The block hashes of a request are the chain of its first full blocks, with keys of inputs as said. -/
def HashedBy (hasher : BlockHasher H) (blockSize : Nat) (P : Nat → List ExtraKey → Prop) (n : Nat)
    (r : Request H) : Prop :=
  ∃ xs, r.blockHashes = chain hasher.hashFunction hasher.noneHash xs ∧ xs.length = n ∧
    n ≤ r.numTokens / blockSize ∧
    ∀ i < n, ∃ mm, P i mm ∧
      xs[i]? = some ((r.allTokenIds.drop (i * blockSize)).take blockSize,
        r.blockKeys (i * blockSize) mm)

namespace HashedBy

variable {P : Nat → List ExtraKey → Prop}

/-- A request without hashes. -/
theorem none (empty : r.blockHashes = []) : r.HashedBy hasher blockSize P 0 :=
  ⟨[], empty, rfl, by simp, fun i below => absurd below (Nat.not_lt_zero i)⟩

theorem mono {P' : Nat → List ExtraKey → Prop} (hashed : r.HashedBy hasher blockSize P n)
    (weaker : ∀ i mm, P i mm → P' i mm) : r.HashedBy hasher blockSize P' n := by
  obtain ⟨xs, eq, length, within, each⟩ := hashed
  refine ⟨xs, eq, length, within, fun i below => ?_⟩
  obtain ⟨mm, keyed, entry⟩ := each i below
  exact ⟨mm, weaker i mm keyed, entry⟩

/-- More tokens leave the hashed blocks as they are. -/
theorem append (hashed : r.HashedBy hasher blockSize P n) (tokens : List TokenId) :
    ({ r with outputTokenIds := r.outputTokenIds ++ tokens } : Request H).HashedBy hasher blockSize P n := by
  obtain ⟨xs, eq, length, within, each⟩ := hashed
  refine ⟨xs, eq, length, within.trans (Nat.div_le_div_right ?_), fun i below => ?_⟩
  · unfold numTokens allTokenIds
    simp only [length_append]
    omega
  · obtain ⟨mm, keyed, entry⟩ := each i below
    have full : (i + 1) * blockSize ≤ r.numTokens :=
      (Nat.mul_le_mul_right _ (below.trans_le within)).trans (Nat.div_mul_le_self _ _)
    have kept := @blockTokens_append H r { r with outputTokenIds := r.outputTokenIds ++ tokens } tokens
      blockSize i rfl rfl full
    rw [entry, kept]
    exact ⟨mm, keyed, rfl⟩

variable {Q : Nat → Int → Prop}

/-- The blocks that have no hash yet are hashed next, from the first or from the last input on. -/
theorem extend (hashed : r.HashedBy hasher blockSize P n) (start : Q n (if 0 < n then -1 else 0))
    (step : ∀ i mmIdx keys next, n ≤ i → Q i mmIdx →
      genMmExtraHashKeys r (i * blockSize) (i * blockSize + blockSize) mmIdx = .ok (keys, next) →
      (i < r.numTokens / blockSize → P i keys) ∧ Q (i + 1) next) {hashes : List H}
    (done : requestBlockHasher hasher blockSize r = .ok hashes) :
    ({ r with blockHashes := r.blockHashes ++ hashes } : Request H).HashedBy hasher blockSize P
      (r.numTokens / blockSize) := by
  obtain ⟨xs, eq, length, within, each⟩ := hashed
  have count : r.blockHashes.length = n := by rw [eq, length_chain, length]
  have covered : n * blockSize ≤ r.numTokens :=
    (Nat.mul_le_mul_right _ within).trans (Nat.div_mul_le_self _ _)
  have first : (if n * blockSize > 0 then (-1 : Int) else 0) = if 0 < n then -1 else 0 := by
    rcases Nat.eq_zero_or_pos blockSize with rfl | size
    · rw [Nat.div_zero, Nat.le_zero] at within
      rw [within, Nat.zero_mul]
    · simp only [gt_iff_lt, Nat.mul_pos_iff_of_pos_right size]
  unfold requestBlockHasher at done
  dsimp only at done
  rw [count, first] at done
  -- The rule of the loop, with blocks counted by their numbers.
  obtain ⟨ys, more, chained, later⟩ := hashBlocksFrom_rule
    (fun start mm => ∃ i, start = i * blockSize ∧ (i < r.numTokens / blockSize → P i mm))
    (fun start mmIdx => ∃ i, n ≤ i ∧ start = i * blockSize ∧ Q i mmIdx)
    (fun _ mmIdx keys next here walk => by
      obtain ⟨i, late, rfl, here⟩ := here
      obtain ⟨keyed, onward⟩ := step i mmIdx keys next late here walk
      exact ⟨⟨i, rfl, keyed⟩, i + 1, by omega, by rw [Nat.succ_mul], onward⟩)
    ⟨n, Nat.le_refl n, rfl, start⟩ done
  have total : n + ys.length = r.numTokens / blockSize := by
    rw [more, Nat.mul_comm, Nat.sub_mul_div_of_le]
    · omega
    · rw [Nat.mul_comm]
      exact covered
  refine ⟨xs ++ ys, ?_, by rw [length_append, length, total], Nat.le_refl _, fun i below => ?_⟩
  · show r.blockHashes ++ hashes = _
    rw [chain_append, ← getLast?_chain, ← eq, ← chained]
  · rw [getElem?_append]
    split
    · rename_i old
      obtain ⟨mm, keyed, entry⟩ := each i (length ▸ old)
      exact ⟨mm, keyed, entry⟩
    · obtain ⟨mm, ⟨j, place, keyed⟩, entry⟩ := later (i - xs.length) (by omega)
      have position : n * blockSize + (i - xs.length) * blockSize = i * blockSize := by
        rw [← Nat.add_mul]
        congr 1
        omega
      have size : 0 < blockSize := Nat.pos_of_ne_zero fun zero => by
        rw [zero, Nat.div_zero] at below
        omega
      rw [position] at place entry
      obtain rfl := Nat.eq_of_mul_eq_mul_right size place
      exact ⟨mm, keyed below, entry⟩

/-- A new request has a hash for each full block of its prompt. -/
theorem created {req : EngineCoreRequest}
    (done : Request.create (requestBlockHasher hasher blockSize) req = .ok r) (start : Q 0 0)
    (step : ∀ i mmIdx keys next, Q i mmIdx →
      genMmExtraHashKeys r (i * blockSize) (i * blockSize + blockSize) mmIdx = .ok (keys, next) →
      (i < r.numTokens / blockSize → P i keys) ∧ Q (i + 1) next) :
    r.HashedBy hasher blockSize P (r.numTokens / blockSize) := by
  have empty : ({ r with blockHashes := [] } : Request H).HashedBy hasher blockSize P 0 := none rfl
  exact empty.extend start (fun i mmIdx keys next _ => step i mmIdx keys next)
    (Request.create_new _ done).hashes

/-- Appended tokens fill further blocks, which are hashed from the last input on. -/
theorem appended {tokens : List TokenId}
    (hashed : r.HashedBy hasher blockSize P (r.numTokens / blockSize))
    (done : appendOutputTokenIds (requestBlockHasher hasher blockSize) r tokens = .ok r')
    (start : Q (r.numTokens / blockSize) (if 0 < r.numTokens / blockSize then -1 else 0))
    (step : ∀ i mmIdx keys next, r.numTokens / blockSize ≤ i → Q i mmIdx →
      genMmExtraHashKeys r (i * blockSize) (i * blockSize + blockSize) mmIdx = .ok (keys, next) →
      (i < r'.numTokens / blockSize → P i keys) ∧ Q (i + 1) next) :
    r'.HashedBy hasher blockSize P (r'.numTokens / blockSize) := by
  obtain ⟨hashes, more, built⟩ := bind_eq_ok.mp done
  cases built
  exact (hashed.append tokens).extend start step more

end HashedBy

/-- A request object with the hashes of its full blocks, after any outputs. -/
inductive Hashing (hasher : BlockHasher H) (blockSize : Nat) : Request H → Prop
  | create {req : EngineCoreRequest} {r : Request H}
      (done : Request.create (requestBlockHasher hasher blockSize) req = .ok r) :
      Hashing hasher blockSize r
  | append {r r' : Request H} {tokens : List TokenId} (before : Hashing hasher blockSize r)
      (done : appendOutputTokenIds (requestBlockHasher hasher blockSize) r tokens = .ok r') :
      Hashing hasher blockSize r'

/-- Whatever is appended, every full block is hashed with its keys. -/
theorem Hashing.hashed (hashing : Hashing hasher blockSize r) (ordered : MmOrdered r.mmFeatures) :
    r.HashedBy hasher blockSize (r.Keyed blockSize) (r.numTokens / blockSize) := by
  induction hashing with
  | create done =>
    exact HashedBy.created done Walked.zero fun _ _ _ _ walked walk =>
      (Keyed.walked ordered walked walk).imp_left fun keyed _ => keyed
  | @append r r' tokens before done ih =>
    have sent : r'.toEngineCoreRequest = r.toEngineCoreRequest := by
      obtain ⟨_, _, built⟩ := bind_eq_ok.mp done
      cases built
      rfl
    have ordered' : MmOrdered r.mmFeatures := by
      rw [← congrArg (·.mmFeatures) sent]
      exact ordered
    refine HashedBy.mono (P := r.Keyed blockSize) ?_ fun i mm keyed => keyed.sent sent
    rcases Nat.eq_zero_or_pos (r.numTokens / blockSize) with first | later
    · refine (ih ordered').appended done (Q := fun i => r.Walked (i * blockSize)) ?_
        fun _ _ _ _ _ walked walk =>
          (Keyed.walked ordered' walked walk).imp_left fun keyed _ => keyed
      rw [first]
      exact Walked.zero
    · have below : r.numTokens < r.numTokens / blockSize * blockSize + blockSize :=
        Nat.lt_div_mul_add (Nat.pos_of_ne_zero fun zero => by simp [zero] at later)
      have prompt : r.promptTokenIds.length ≤ r.numTokens := by
        unfold numTokens allTokenIds
        rw [length_append]
        omega
      refine (ih ordered').appended done (Q := r.Resumed blockSize (r.numTokens / blockSize)) ?_
        fun _ _ _ _ late here walk =>
          (Keyed.last later (by omega) late here walk).imp_left fun keyed _ => keyed
      rw [if_pos later]
      exact .inl ⟨rfl, rfl⟩

/-- The inputs that start before a position start inside the prompt, and behind its last full block at most
the last input does. -/
structure Settled (blockSize bound : Nat) (r : Request H) : Prop where
  inside : ∀ m ∈ r.mmFeatures, m.offset < bound → m.offset < r.promptTokenIds.length
  alone : ∀ m ∈ r.mmFeatures.dropLast, m.offset < bound →
    m.offset < r.promptTokenIds.length / blockSize * blockSize ∨ r.promptTokenIds.length < blockSize

/-- Before a position, the tokens show which places belong to inputs, and an input's hash how long it is. -/
structure Marked (marks : TokenId → Prop) (lengthOf : String → Nat) (bound : Nat) (r : Request H) : Prop where
  covered : ∀ p t, r.allTokenIds[p]? = some t → p < bound →
    (marks t ↔ ∃ m ∈ r.mmFeatures, m.offset ≤ p ∧ p < m.offset + m.length)
  sized : ∀ m ∈ r.mmFeatures, m.offset < bound → 0 < m.length ∧ m.length = lengthOf m.identifier

/-- An input is seen by the block it starts in, among the inputs of the block or alone. -/
theorem Keyed.starts (keyed : r.Keyed blockSize i mm)
    (settled : r.Settled blockSize bound) (member : m ∈ r.mmFeatures)
    (small : m.offset < bound) (after : i * blockSize ≤ m.offset)
    (before : m.offset < i * blockSize + blockSize) :
    mm = mmKeys (r.mmFeatures.filter (·.ofBlock blockSize i)) ∨
      0 < i ∧ mm = [.str m.identifier] := by
  cases keyed with
  | whole => exact .inl rfl
  | resumed _ behind later strings tail =>
    refine .inr ⟨later, ?_⟩
    have inside := settled.inside m member small
    obtain ⟨init, last, eq⟩ :=
      (eq_nil_or_concat' r.mmFeatures).resolve_left (ne_nil_of_mem member)
    rw [eq] at member
    rcases mem_append.mp member with early | here
    · -- Earlier inputs start in full blocks of the prompt, before this block.
      have full : r.promptTokenIds.length / blockSize * blockSize ≤ i * blockSize :=
        Nat.mul_le_mul_right _ behind
      have one : blockSize ≤ i * blockSize := Nat.le_mul_of_pos_left _ later
      rcases settled.alone m (by rw [eq, dropLast_concat]; exact early) small with less | short
      · omega
      · omega
    · obtain rfl := mem_singleton.mp here
      exact tail m (by rw [eq, getLast?_concat]) after before inside

/-- The salt is a key of the first block only. -/
theorem cacheSaltKeys_later (r : Request H) (size : 0 < blockSize) (later : 0 < i) :
    cacheSaltKeys r (i * blockSize) = [] := by
  unfold cacheSaltKeys
  split
  · exact if_neg (Nat.mul_pos later size).ne'
  · rfl

/-- Two requests with the same keys for a block and the same inputs before the one that starts in it name that
one alike. -/
theorem Keyed.identifier {mm' : List ExtraKey} {b : MmFeature} (size : 0 < blockSize)
    (first : r₁.Keyed blockSize i mm) (second : r₂.Keyed blockSize i mm')
    (keys : mm ++ cacheSaltKeys r₁ (i * blockSize) = mm' ++ cacheSaltKeys r₂ (i * blockSize))
    (settled₁ : r₁.Settled blockSize bound) (settled₂ : r₂.Settled blockSize bound)
    (earlier : r₁.mmFeatures.take n = r₂.mmFeatures.take n) (here : r₁.mmFeatures[n]? = some a)
    (there : r₂.mmFeatures[n]? = some b) (offset : a.offset = b.offset) (small : a.offset < bound)
    (after : i * blockSize ≤ a.offset) (before : a.offset < i * blockSize + blockSize) :
    a.identifier = b.identifier := by
  have inA := mem_of_getElem? here
  have inB := mem_of_getElem? there
  have insideA := MmFeature.inBlock_of_starts after before
  have insideB : b.ofBlock blockSize i = true :=
    MmFeature.inBlock_of_starts (offset ▸ after) (offset ▸ before)
  -- The place of an input in the keys of a block that was hashed whole.
  have listed : ∀ {r : Request H} {m : MmFeature} (rest : List ExtraKey), r.mmFeatures[n]? = some m →
      m.ofBlock blockSize i = true →
      (mmKeys (r.mmFeatures.filter (·.ofBlock blockSize i)) ++ rest)[
        ((r.mmFeatures.take n).filter (·.ofBlock blockSize i)).length]? =
        some (.str m.identifier) := by
    intro r m rest found inside
    have place := getElem?_filter_take found inside
    rw [getElem?_append_left, mmKeys, getElem?_map, place]
    · rfl
    · rw [mmKeys, length_map]
      exact (List.getElem?_eq_some_iff.mp place).1
  have seen := first.starts settled₁ inA small after before
  have seen' := second.starts settled₂ inB (offset ▸ small) (offset ▸ after) (offset ▸ before)
  rcases seen with rfl | ⟨later, rfl⟩
  · rcases seen' with rfl | ⟨later, rfl⟩
    · have one := listed (cacheSaltKeys r₁ (i * blockSize)) here insideA
      rw [keys, earlier, listed _ there insideB] at one
      exact (ExtraKey.str.inj (Option.some.inj one)).symm
    · -- The second sees its input alone, and the first has it in its list.
      rw [cacheSaltKeys_later _ size later, cacheSaltKeys_later _ size later, append_nil] at keys
      have one := mem_of_getElem? (listed [] here insideA)
      rw [keys, append_nil] at one
      exact ExtraKey.str.inj (mem_singleton.mp one)
  · rw [cacheSaltKeys_later _ size later, cacheSaltKeys_later _ size later, append_nil] at keys
    rcases seen' with rfl | ⟨_, rfl⟩
    · have one := mem_of_getElem? (listed [] there insideB)
      rw [← keys] at one
      exact (ExtraKey.str.inj (mem_singleton.mp one)).symm
    · simpa using keys

/-- Two requests with the same tokens before a position and the same keys for the blocks before it, whose inputs
there can be read off the tokens and are all seen. -/
structure Twins (blockSize bound : Nat) (marks : TokenId → Prop) (lengthOf : String → Nat)
    (r₁ r₂ : Request H) : Prop where
  ordered₁ : MmOrdered r₁.mmFeatures
  ordered₂ : MmOrdered r₂.mmFeatures
  settled₁ : r₁.Settled blockSize bound
  settled₂ : r₂.Settled blockSize bound
  marked₁ : r₁.Marked marks lengthOf bound
  marked₂ : r₂.Marked marks lengthOf bound
  enough₁ : bound ≤ r₁.numTokens
  enough₂ : bound ≤ r₂.numTokens
  tokens : r₁.allTokenIds.take bound = r₂.allTokenIds.take bound
  keys : ∀ j, j * blockSize < bound → ∃ mm₁ mm₂, r₁.Keyed blockSize j mm₁ ∧ r₂.Keyed blockSize j mm₂ ∧
    mm₁ ++ cacheSaltKeys r₁ (j * blockSize) = mm₂ ++ cacheSaltKeys r₂ (j * blockSize)

namespace Twins

variable {marks : TokenId → Prop} {lengthOf : String → Nat}
  (twins : Twins blockSize bound marks lengthOf r₁ r₂)

include twins

theorem symm : Twins blockSize bound marks lengthOf r₂ r₁ where
  ordered₁ := twins.ordered₂
  ordered₂ := twins.ordered₁
  settled₁ := twins.settled₂
  settled₂ := twins.settled₁
  marked₁ := twins.marked₂
  marked₂ := twins.marked₁
  enough₁ := twins.enough₂
  enough₂ := twins.enough₁
  tokens := twins.tokens.symm
  keys j below := by
    obtain ⟨mm₁, mm₂, keyed₁, keyed₂, same⟩ := twins.keys j below
    exact ⟨mm₂, mm₁, keyed₂, keyed₁, same.symm⟩

/-- Behind the same first inputs, where one request has its next input the other has one too, not behind it. -/
theorem starts (earlier : ∀ k < n, ∀ x, r₁.mmFeatures[k]? = some x → x.offset < bound →
      r₂.mmFeatures[k]? = some x)
    (here : r₁.mmFeatures[n]? = some a) (small : a.offset < bound) :
    ∃ b, r₂.mmFeatures[n]? = some b ∧ b.offset ≤ a.offset := by
  have member := mem_of_getElem? here
  obtain ⟨t, token⟩ : ∃ t, r₁.allTokenIds[a.offset]? = some t :=
    ⟨_, getElem?_eq_getElem (small.trans_le twins.enough₁)⟩
  have token' : r₂.allTokenIds[a.offset]? = some t := by
    rw [← getElem?_take_of_lt small, ← twins.tokens, getElem?_take_of_lt small, token]
  have mark : marks t := (twins.marked₁.covered _ t token small).mpr
    ⟨a, member, Nat.le_refl _, by have := (twins.marked₁.sized a member small).1; omega⟩
  obtain ⟨c, listed, starts, ends⟩ := (twins.marked₂.covered _ t token' small).mp mark
  obtain ⟨k, found⟩ := getElem?_of_mem listed
  rcases Nat.lt_or_ge k n with early | late
  · -- The other's input at this place is none of the first ones, which end before.
    obtain ⟨x, there⟩ : ∃ x, r₁.mmFeatures[k]? = some x :=
      ⟨_, getElem?_eq_getElem (early.trans (List.getElem?_eq_some_iff.mp here).1)⟩
    have apart := twins.ordered₁.ends_before early there here
    cases (earlier k early x there (by omega)).symm.trans found
    omega
  · obtain ⟨b, following⟩ : ∃ b, r₂.mmFeatures[n]? = some b :=
      ⟨_, getElem?_eq_getElem (late.trans_lt (List.getElem?_eq_some_iff.mp found).1)⟩
    refine ⟨b, following, ?_⟩
    rcases Nat.eq_or_lt_of_le late with rfl | before
    · cases following.symm.trans found
      exact starts
    · have := twins.ordered₂.ends_before before following found
      omega

/-- Behind the same first inputs the next one is the same. -/
theorem same (size : 0 < blockSize)
    (earlier : ∀ k < n, ∀ x, (r₁.mmFeatures[k]? = some x ∧ x.offset < bound) ↔
      (r₂.mmFeatures[k]? = some x ∧ x.offset < bound))
    (here : r₁.mmFeatures[n]? = some a) (small : a.offset < bound) : r₂.mmFeatures[n]? = some a := by
  obtain ⟨b, there, before⟩ := twins.starts
    (fun k early x found below => ((earlier k early x).mp ⟨found, below⟩).1) here small
  obtain ⟨a', again, after⟩ := twins.symm.starts
    (fun k early x found below => ((earlier k early x).mpr ⟨found, below⟩).1) there (by omega)
  cases here.symm.trans again
  have offset : a.offset = b.offset := by omega
  have heads : r₁.mmFeatures.take n = r₂.mmFeatures.take n := by
    refine ext_getElem? fun k => ?_
    rw [getElem?_take, getElem?_take]
    split
    · rename_i early
      obtain ⟨x, found⟩ : ∃ x, r₁.mmFeatures[k]? = some x :=
        ⟨_, getElem?_eq_getElem (early.trans (List.getElem?_eq_some_iff.mp here).1)⟩
      have apart := twins.ordered₁.ends_before early found here
      rw [found, ((earlier k early x).mp ⟨found, by omega⟩).1]
    · rfl
  -- The block in which both start has the same keys in both requests.
  have start : a.offset / blockSize * blockSize ≤ a.offset := Nat.div_mul_le_self _ _
  obtain ⟨mm₁, mm₂, keyed₁, keyed₂, keys⟩ := twins.keys (a.offset / blockSize) (by omega)
  have identifier : a.identifier = b.identifier := keyed₁.identifier size keyed₂ keys twins.settled₁
    twins.settled₂ heads here there offset small start (Nat.lt_div_mul_add size)
  have length : a.length = b.length := by
    rw [(twins.marked₁.sized a (mem_of_getElem? here) small).2, identifier,
      (twins.marked₂.sized b (mem_of_getElem? there) (by omega)).2]
  rw [there]
  cases a
  cases b
  simp_all

/-- The inputs that start before the position are the same. -/
theorem items (size : 0 < blockSize) :
    (r₁.mmFeatures.filter fun m => decide (m.offset < bound)) =
      r₂.mmFeatures.filter fun m => decide (m.offset < bound) := by
  have agree : ∀ (n : Nat) (x : MmFeature), (r₁.mmFeatures[n]? = some x ∧ x.offset < bound) ↔
      (r₂.mmFeatures[n]? = some x ∧ x.offset < bound) := by
    intro n
    induction n using Nat.strong_induction_on with
    | _ n ih =>
      intro x
      constructor
      · rintro ⟨found, small⟩
        exact ⟨twins.same size ih found small, small⟩
      · rintro ⟨found, small⟩
        exact ⟨twins.symm.same size (fun k early y => (ih k early y).symm) found small, small⟩
  refine ext_getElem? fun n => ?_
  rw [twins.ordered₁.getElem?_filter, twins.ordered₂.getElem?_filter]
  refine Option.ext fun x => ?_
  simpa [Option.filter_eq_some_iff] using agree n x

/-- The salt is what the key of the first block has behind the inputs. -/
theorem salts (size : 0 < blockSize) (whole : blockSize ≤ bound) : r₁.saltKey = r₂.saltKey := by
  obtain ⟨_, _, keyed₁, keyed₂, keys⟩ := twins.keys 0 (by omega)
  have whole' : 0 * blockSize + blockSize ≤ bound := by omega
  have inputs : r₁.mmFeatures.filter (·.ofBlock blockSize 0) =
      r₂.mmFeatures.filter (·.ofBlock blockSize 0) := by
    rw [← filter_inBlock whole', twins.items size, filter_inBlock whole']
  cases keyed₁ with
  | resumed => omega
  | whole =>
    cases keyed₂ with
    | resumed => omega
    | whole =>
      rw [inputs] at keys
      have tails := append_cancel_left keys
      unfold cacheSaltKeys at tails
      cases one : r₁.saltKey <;> cases two : r₂.saltKey <;> simp_all

end Twins

/-- The keys of a block determine their list. -/
theorem blockKeys_inj {mm₁ mm₂ : List ExtraKey}
    (same : r₁.blockKeys start mm₁ = r₂.blockKeys start mm₂) :
    genLoraExtraHashKeys r₁ ++ mm₁ ++ cacheSaltKeys r₁ start =
      genLoraExtraHashKeys r₂ ++ mm₂ ++ cacheSaltKeys r₂ start := by
  unfold blockKeys at same
  dsimp only at same
  split at same
  · rename_i first
    split at same
    · rename_i second
      rw [List.isEmpty_iff.mp first, List.isEmpty_iff.mp second]
    · cases same
  · split at same
    · cases same
    · exact Option.some.inj same

/-- The adapter stands first and is a number, unlike all other keys. -/
theorem lora_inj {rest₁ rest₂ : List ExtraKey}
    (first : ∀ k ∈ rest₁, ∃ text, k = .str text) (second : ∀ k ∈ rest₂, ∃ text, k = .str text)
    (same : genLoraExtraHashKeys r₁ ++ rest₁ = genLoraExtraHashKeys r₂ ++ rest₂) :
    r₁.loraRequest = r₂.loraRequest ∧ rest₁ = rest₂ := by
  unfold genLoraExtraHashKeys at same
  cases one : r₁.loraRequest with
  | none =>
    cases two : r₂.loraRequest with
    | none => rw [one, two] at same; exact ⟨rfl, same⟩
    | some id =>
      rw [one, two] at same
      simp only [nil_append] at same
      obtain ⟨text, eq⟩ := first (.int id) (by rw [same]; simp)
      cases eq
  | some id =>
    cases two : r₂.loraRequest with
    | none =>
      rw [one, two] at same
      simp only [nil_append] at same
      obtain ⟨text, eq⟩ := second (.int id) (by rw [← same]; simp)
      cases eq
    | some =>
      rw [one, two] at same
      simp only [cons_append, nil_append, List.cons.injEq, ExtraKey.int.injEq] at same
      exact ⟨by rw [same.1], same.2⟩

theorem Keyed.strings (keyed : r.Keyed blockSize i mm) :
    ∀ k ∈ mm ++ cacheSaltKeys r (i * blockSize), ∃ text, k = .str text := by
  intro k member
  rcases mem_append.mp member with input | salt
  · cases keyed with
    | whole =>
      obtain ⟨m, _, rfl⟩ := mem_map.mp input
      exact ⟨_, rfl⟩
    | resumed _ _ _ strings => exact strings k input
  · unfold cacheSaltKeys at salt
    split at salt
    · split at salt
      · cases mem_singleton.mp salt
        exact ⟨_, rfl⟩
      · cases salt
    · cases salt

/-- Lists that agree block by block agree on the blocks together. -/
theorem take_blocks {xs ys : List TokenId} {count : Nat}
    (blocks : ∀ j < count, (xs.drop (j * blockSize)).take blockSize =
      (ys.drop (j * blockSize)).take blockSize) :
    xs.take (count * blockSize) = ys.take (count * blockSize) := by
  induction count with
  | zero => simp
  | succ count ih =>
    rw [Nat.succ_mul, take_add, take_add, ih fun j below => blocks j (by omega),
      blocks count (by omega)]

/-- What equal hashes at one index say about each block up to it. -/
theorem HashedBy.blocks {n₁ n₂ : Nat} {h : H} (injective : Function.Injective hasher.hashFunction)
    (first : r₁.HashedBy hasher blockSize (r₁.Keyed blockSize) n₁)
    (second : r₂.HashedBy hasher blockSize (r₂.Keyed blockSize) n₂)
    (here : r₁.blockHashes[i]? = some h) (there : r₂.blockHashes[i]? = some h) :
    i < n₁ ∧ i < n₂ ∧ ∀ j < i + 1, (r₁.allTokenIds.drop (j * blockSize)).take blockSize =
        (r₂.allTokenIds.drop (j * blockSize)).take blockSize ∧
      ∃ mm₁ mm₂, r₁.Keyed blockSize j mm₁ ∧ r₂.Keyed blockSize j mm₂ ∧
        r₁.blockKeys (j * blockSize) mm₁ = r₂.blockKeys (j * blockSize) mm₂ := by
  obtain ⟨xs, eq, rfl, _, each⟩ := first
  obtain ⟨ys, eq', rfl, _, each'⟩ := second
  rw [eq] at here
  rw [eq'] at there
  obtain ⟨below, below', same⟩ := chain_getElem?_injective injective here there
  refine ⟨below, below', fun j within => ?_⟩
  obtain ⟨mm₁, keyed₁, entry₁⟩ := each j (by omega)
  obtain ⟨mm₂, keyed₂, entry₂⟩ := each' j (by omega)
  have agree : xs[j]? = ys[j]? := by
    rw [← getElem?_take_of_lt within, same, getElem?_take_of_lt within]
  rw [entry₁, entry₂, Option.some.injEq, Prod.mk.injEq] at agree
  exact ⟨agree.1, mm₁, mm₂, keyed₁, keyed₂, agree.2⟩

/-- Requests whose hashes agree at a block agree on all tokens up to its end and on the adapter; if the tokens
show the places of their inputs up to there, they agree on the salt and on these inputs too. -/
theorem blockHashes_sound {r₁ r₂ : Request H} (injective : Function.Injective hasher.hashFunction)
    (first : Hashing hasher blockSize r₁) (second : Hashing hasher blockSize r₂)
    (ordered₁ : MmOrdered r₁.mmFeatures) (ordered₂ : MmOrdered r₂.mmFeatures) {i : Nat} {h : H}
    (here : r₁.blockHashes[i]? = some h) (there : r₂.blockHashes[i]? = some h) :
    (r₁.allTokenIds.take ((i + 1) * blockSize) = r₂.allTokenIds.take ((i + 1) * blockSize) ∧
      (i + 1) * blockSize ≤ r₁.numTokens ∧ (i + 1) * blockSize ≤ r₂.numTokens ∧
      r₁.loraRequest = r₂.loraRequest) ∧
    ∀ (marks : TokenId → Prop) (lengthOf : String → Nat),
      r₁.Settled blockSize ((i + 1) * blockSize) → r₂.Settled blockSize ((i + 1) * blockSize) →
      r₁.Marked marks lengthOf ((i + 1) * blockSize) → r₂.Marked marks lengthOf ((i + 1) * blockSize) →
      r₁.saltKey = r₂.saltKey ∧
      (r₁.mmFeatures.filter fun m => decide (m.offset < (i + 1) * blockSize)) =
        r₂.mmFeatures.filter fun m => decide (m.offset < (i + 1) * blockSize) := by
  obtain ⟨below₁, below₂, blocks⟩ :=
    HashedBy.blocks injective (first.hashed ordered₁) (second.hashed ordered₂) here there
  have size : 0 < blockSize := by
    rcases Nat.eq_zero_or_pos blockSize with zero | pos
    · rw [zero, Nat.div_zero] at below₁
      omega
    · exact pos
  have keys : ∀ j < i + 1, ∃ mm₁ mm₂, r₁.Keyed blockSize j mm₁ ∧ r₂.Keyed blockSize j mm₂ ∧
      r₁.loraRequest = r₂.loraRequest ∧
      mm₁ ++ cacheSaltKeys r₁ (j * blockSize) = mm₂ ++ cacheSaltKeys r₂ (j * blockSize) := by
    intro j within
    obtain ⟨_, mm₁, mm₂, keyed₁, keyed₂, same⟩ := blocks j within
    have all := blockKeys_inj same
    rw [append_assoc, append_assoc] at all
    obtain ⟨lora, rest⟩ := lora_inj keyed₁.strings keyed₂.strings all
    exact ⟨mm₁, mm₂, keyed₁, keyed₂, lora, rest⟩
  obtain ⟨_, _, -, -, lora, -⟩ := keys 0 (Nat.succ_pos i)
  have tokens := take_blocks fun j within => (blocks j within).1
  have enough₁ := (Nat.le_div_iff_mul_le size).mp below₁
  have enough₂ := (Nat.le_div_iff_mul_le size).mp below₂
  refine ⟨⟨tokens, enough₁, enough₂, lora⟩, fun marks lengthOf settled₁ settled₂ marked₁ marked₂ => ?_⟩
  have twins : Twins blockSize ((i + 1) * blockSize) marks lengthOf r₁ r₂ :=
    ⟨ordered₁, ordered₂, settled₁, settled₂, marked₁, marked₂, enough₁, enough₂, tokens,
      fun j below => by
        obtain ⟨mm₁, mm₂, keyed₁, keyed₂, _, rest⟩ := keys j (Nat.lt_of_mul_lt_mul_right below)
        exact ⟨mm₁, mm₂, keyed₁, keyed₂, rest⟩⟩
  have whole : blockSize ≤ (i + 1) * blockSize := Nat.le_mul_of_pos_left _ (Nat.succ_pos i)
  exact ⟨twins.salts size whole, twins.items size⟩

section Pictures

/-- A request with multimodal inputs. -/
def pictureRequest (prompt : List TokenId) (items : List MmFeature) (salt : Option String) :
    EngineCoreRequest where
  requestId := 0
  promptTokenIds := prompt
  mmFeatures := items
  samplingParams := some { maxTokens := 4 }
  cacheSalt := salt

/-- A request object as it is created, with some tokens appended. -/
def pictured (blockSize : Nat) (req : EngineCoreRequest) (tokens : List TokenId) :
    Except Err (Request FreeHash) := do
  let r ← Request.create (requestBlockHasher freeHasher blockSize) req
  appendOutputTokenIds (requestBlockHasher freeHasher blockSize) r tokens

/-- Two such requests, and what an evaluation shows of them. -/
theorem pictured_pair (blockSize : Nat) (req₁ req₂ : EngineCoreRequest) (tokens₁ tokens₂ : List TokenId)
    {Q : Request FreeHash → Request FreeHash → Prop}
    (run : ∃ r₁, pictured blockSize req₁ tokens₁ = .ok r₁ ∧
      ∃ r₂, pictured blockSize req₂ tokens₂ = .ok r₂ ∧ Q r₁ r₂) :
    ∃ r₁ r₂, Hashing freeHasher blockSize r₁ ∧ Hashing freeHasher blockSize r₂ ∧ Q r₁ r₂ := by
  have hashing : ∀ {req tokens r}, pictured blockSize req tokens = .ok r →
      Hashing freeHasher blockSize r := by
    intro req tokens r done
    obtain ⟨r₀, created, appended⟩ := bind_eq_ok.mp done
    exact .append (.create created) appended
  obtain ⟨r₁, built₁, r₂, built₂, shown⟩ := run
  exact ⟨r₁, r₂, hashing built₁, hashing built₂, shown⟩

instance decidableMmOrdered (items : List MmFeature) : Decidable (MmOrdered items) :=
  inferInstanceAs (Decidable (items.Pairwise _))

/-- Two requests with the same picture over the block border and one more output; token 9 stands for pictures,
which have two tokens each. -/
theorem blockHashes_sound_onePicture :
    ∃ (r₁ r₂ : Request FreeHash) (h : FreeHash), Function.Injective freeHasher.hashFunction ∧
      Hashing freeHasher 2 r₁ ∧ Hashing freeHasher 2 r₂ ∧ MmOrdered r₁.mmFeatures ∧
      MmOrdered r₂.mmFeatures ∧ r₁.blockHashes[1]? = some h ∧ r₂.blockHashes[1]? = some h ∧
      r₁.Settled 2 4 ∧ r₂.Settled 2 4 ∧ r₁.Marked (· = 9) (fun _ => 2) 4 ∧
      r₂.Marked (· = 9) (fun _ => 2) 4 ∧ r₁.saltKey = r₂.saltKey ∧
      (r₁.mmFeatures.filter fun m => decide (m.offset < 4)) =
        r₂.mmFeatures.filter fun m => decide (m.offset < 4) := by
  obtain ⟨r₁, r₂, hashing₁, hashing₂, count, same, prompt₁, prompt₂, tokens₁, tokens₂, items₁, items₂⟩ :=
    pictured_pair 2 (pictureRequest [5, 9, 9] [⟨"cat", 1, 2⟩] (some "key"))
      (pictureRequest [5, 9, 9, 7] [⟨"cat", 1, 2⟩] (some "key")) [7] []
      (Q := fun r₁ r₂ => r₁.blockHashes.length = 2 ∧ r₁.blockHashes = r₂.blockHashes ∧
        r₁.promptTokenIds = [5, 9, 9] ∧ r₂.promptTokenIds = [5, 9, 9, 7] ∧
        r₁.allTokenIds = [5, 9, 9, 7] ∧ r₂.allTokenIds = [5, 9, 9, 7] ∧
        r₁.mmFeatures = [⟨"cat", 1, 2⟩] ∧ r₂.mmFeatures = [⟨"cat", 1, 2⟩]) (by decide +kernel)
  have ordered₁ : MmOrdered r₁.mmFeatures := by rw [items₁]; decide
  have ordered₂ : MmOrdered r₂.mmFeatures := by rw [items₂]; decide
  have settled₁ : r₁.Settled 2 4 := ⟨by rw [items₁, prompt₁]; decide, by rw [items₁, prompt₁]; decide⟩
  have settled₂ : r₂.Settled 2 4 := ⟨by rw [items₂, prompt₂]; decide, by rw [items₂, prompt₂]; decide⟩
  have marked : ∀ {r : Request FreeHash}, r.allTokenIds = [5, 9, 9, 7] →
      r.mmFeatures = [⟨"cat", 1, 2⟩] → r.Marked (· = 9) (fun _ => 2) 4 := by
    intro r tokens items
    exact ⟨by rw [tokens, items]; decide, by rw [items]; decide⟩
  obtain ⟨h, here⟩ : ∃ h, r₁.blockHashes[1]? = some h :=
    ⟨_, getElem?_eq_getElem (by omega)⟩
  have there : r₂.blockHashes[1]? = some h := by rw [← same]; exact here
  obtain ⟨salts, items⟩ := (blockHashes_sound freeHasher_collisionFree.injective hashing₁ hashing₂ ordered₁
    ordered₂ here there).2 _ _ settled₁ settled₂ (marked tokens₁ items₁) (marked tokens₂ items₂)
  exact ⟨r₁, r₂, h, freeHasher_collisionFree.injective, hashing₁, hashing₂, ordered₁, ordered₂, here, there,
    settled₁, settled₂, marked tokens₁ items₁, marked tokens₂ items₂, salts, items⟩

/-- Requests that differ in the place of a picture, in a salt that reads like a picture, or in a
picture behind the last full block of the prompt, and still have the same hash. -/
theorem pictures_confused :
    Function.Injective freeHasher.hashFunction ∧
    (∃ r₁ r₂ : Request FreeHash, Hashing freeHasher 2 r₁ ∧ Hashing freeHasher 2 r₂ ∧
      MmOrdered r₁.mmFeatures ∧ MmOrdered r₂.mmFeatures ∧ r₁.blockHashes[0]?.isSome = true ∧
      r₁.blockHashes[0]? = r₂.blockHashes[0]? ∧ r₁.mmFeatures = [⟨"cat", 0, 1⟩] ∧
      r₂.mmFeatures = [⟨"cat", 1, 1⟩]) ∧
    (∃ r₁ r₂ : Request FreeHash, Hashing freeHasher 2 r₁ ∧ Hashing freeHasher 2 r₂ ∧
      MmOrdered r₁.mmFeatures ∧ MmOrdered r₂.mmFeatures ∧ r₁.blockHashes[0]?.isSome = true ∧
      r₁.blockHashes[0]? = r₂.blockHashes[0]? ∧ r₁.saltKey = some "cat" ∧ r₂.saltKey = none ∧
      r₁.mmFeatures = [] ∧ r₂.mmFeatures = [⟨"cat", 0, 1⟩]) ∧
    ∃ r₁ r₂ : Request FreeHash, Hashing freeHasher 4 r₁ ∧ Hashing freeHasher 4 r₂ ∧
      MmOrdered r₁.mmFeatures ∧ MmOrdered r₂.mmFeatures ∧ r₁.blockHashes[1]?.isSome = true ∧
      r₁.blockHashes[1]? = r₂.blockHashes[1]? ∧ r₁.mmFeatures = [⟨"cat", 4, 1⟩, ⟨"dog", 5, 1⟩] ∧
      r₂.mmFeatures = [⟨"cow", 4, 1⟩, ⟨"dog", 5, 1⟩] := by
  refine ⟨freeHasher_collisionFree.injective, ?_, ?_, ?_⟩
  · exact pictured_pair 2 (pictureRequest [5, 5] [⟨"cat", 0, 1⟩] none)
      (pictureRequest [5, 5] [⟨"cat", 1, 1⟩] none) [] [] (by decide +kernel)
  · exact pictured_pair 2 (pictureRequest [5, 5] [] (some "cat"))
      (pictureRequest [5, 5] [⟨"cat", 0, 1⟩] none) [] [] (by decide +kernel)
  · exact pictured_pair 4 (pictureRequest [5, 5, 5, 5, 9, 9] [⟨"cat", 4, 1⟩, ⟨"dog", 5, 1⟩] none)
      (pictureRequest [5, 5, 5, 5, 9, 9] [⟨"cow", 4, 1⟩, ⟨"dog", 5, 1⟩] none) [7, 8] [7, 8]
      (by decide +kernel)

end Pictures

end Request

end Mimir
