import Mimir.Request.Hash
import Mimir.Theory.HashChain

/-! A request's block hashes are the chain of its blocks. -/

namespace Mimir

open Python Theory List

variable {H : Type} {hasher : BlockHasher H} {r r' : Request H} {hashes : List H} {tokens : List TokenId}

/-- A hash whose chains never come back to an earlier hash. -/
def BlockHasher.Acyclic {H : Type} (hasher : BlockHasher H) : Prop :=
  Theory.Acyclic hasher.hashFunction hasher.noneHash

/-- Without collisions no chain comes back. -/
theorem BlockHasher.CollisionFree.acyclic (free : hasher.CollisionFree) : hasher.Acyclic :=
  acyclic_of_injective free.injective free.seed

namespace Request

variable {blockSize : Nat}

/-- The keys beside the tokens of a block, for a request without multimodal inputs. -/
def textKeys (r : Request H) (startTokenIdx : Nat) : Option (List ExtraKey) :=
  let extraKeys := genLoraExtraHashKeys r ++ cacheSaltKeys r startTokenIdx
  if extraKeys.isEmpty then none else some extraKeys

/-- What the hash of a block covers beside the block before it, without multimodal inputs. -/
def blockInput (blockSize : Nat) (r : Request H) (i : Nat) :
    List TokenId × Option (List ExtraKey) :=
  ((r.allTokenIds.drop (i * blockSize)).take blockSize, r.textKeys (i * blockSize))

/-- The block hashes of a request form a chain over its leading blocks. -/
structure Chained (hasher : BlockHasher H) (blockSize : Nat) (r : Request H) : Prop where
  inputs : ∃ xs, r.blockHashes = chain hasher.hashFunction hasher.noneHash xs ∧
    (∀ i < xs.length, ∃ keys, xs[i]? =
      some ((r.allTokenIds.drop (i * blockSize)).take blockSize, keys)) ∧
    (r.mmFeatures = [] → ∀ i, i < xs.length → xs[i]? = some (r.blockInput blockSize i))
  within : r.blockHashes.length * blockSize ≤ r.numTokens

/-- The keys beside the tokens of a block, with those of its multimodal inputs. -/
def blockKeys (r : Request H) (startTokenIdx : Nat) (mm : List ExtraKey) : Option (List ExtraKey) :=
  let extraKeys := genLoraExtraHashKeys r ++ mm ++ cacheSaltKeys r startTokenIdx
  if extraKeys.isEmpty then none else some extraKeys

variable {count start i : Nat} {mmIdx : Int} {prev : Option H}

/-- The rule of the hashing loop: what the walk over the inputs keeps from block to block says what
each hash covers. -/
theorem hashBlocksFrom_rule (P : Nat → List ExtraKey → Prop) (Q : Nat → Int → Prop)
    (step : ∀ (start : Nat) (mmIdx : Int) (keys : List ExtraKey) (next : Int), Q start mmIdx →
      genMmExtraHashKeys r start (start + blockSize) mmIdx = .ok (keys, next) →
      P start keys ∧ Q (start + blockSize) next)
    (first : Q start mmIdx)
    (done : hashBlocksFrom hasher blockSize r count start mmIdx prev = .ok hashes) :
    ∃ xs, xs.length = count ∧
      hashes = chain hasher.hashFunction (prev.getD hasher.noneHash) xs ∧
      ∀ i < count, ∃ mm, P (start + i * blockSize) mm ∧
        xs[i]? = some ((r.allTokenIds.drop (start + i * blockSize)).take blockSize,
          r.blockKeys (start + i * blockSize) mm) := by
  -- The induction is on the number of blocks still to be hashed.
  induction count generalizing start mmIdx prev hashes with
  | zero =>
    cases done
    exact ⟨[], rfl, rfl, fun i below => by omega⟩
  | succ count ih =>
    obtain ⟨⟨keys, next⟩, extra, tail⟩ := bind_eq_ok.mp done
    obtain ⟨rest, later, built⟩ := bind_eq_ok.mp tail
    cases built
    obtain ⟨⟨mm, next'⟩, walk, built⟩ := bind_eq_ok.mp extra
    cases built
    obtain ⟨here, onward⟩ := step _ _ _ _ first walk
    obtain ⟨xs, length, eq, each⟩ := ih onward later
    refine ⟨((r.allTokenIds.drop start).take blockSize, r.blockKeys start mm) :: xs,
      by simp [length], ?_, ?_⟩
    · rw [eq]
      rfl
    · intro i below
      cases i with
      | zero => exact ⟨mm, by simpa using here, by simp⟩
      | succ i =>
        have shift : start + blockSize + i * blockSize = start + (i + 1) * blockSize := by
          rw [Nat.add_mul, Nat.one_mul]; omega
        obtain ⟨mm', known, entry⟩ := each i (by omega)
        rw [shift] at known entry
        exact ⟨mm', known, by simpa using entry⟩

/-- Without multimodal inputs a block has no keys of any. -/
theorem genMmExtraHashKeys_text {stop : Nat} {next : Int} {keys : List ExtraKey}
    (text : r.mmFeatures = []) (done : genMmExtraHashKeys r start stop mmIdx = .ok (keys, next)) :
    keys = [] := by
  unfold genMmExtraHashKeys at done
  rw [text] at done
  simp only [getLast?_nil, Except.ok.injEq, Prod.mk.injEq] at done
  exact done.1.symm

/-- The hashing loop continues the chain, one block after the other. -/
theorem hashBlocksFrom_spec (done : hashBlocksFrom hasher blockSize r count start mmIdx prev = .ok hashes) :
    ∃ xs, xs.length = count ∧
      hashes = chain hasher.hashFunction (prev.getD hasher.noneHash) xs ∧
      (∀ i < count, ∃ keys, xs[i]? =
        some ((r.allTokenIds.drop (start + i * blockSize)).take blockSize, keys)) ∧
      (r.mmFeatures = [] → ∀ i, i < count → xs[i]? =
        some ((r.allTokenIds.drop (start + i * blockSize)).take blockSize,
          r.textKeys (start + i * blockSize))) := by
  obtain ⟨xs, length, eq, each⟩ := hashBlocksFrom_rule
    (fun _ mm => r.mmFeatures = [] → mm = []) (fun _ _ => True)
    (fun _ _ _ _ _ walk => ⟨fun text => genMmExtraHashKeys_text text walk, trivial⟩) trivial done
  refine ⟨xs, length, eq, fun i below => ?_, fun text i below => ?_⟩
  · obtain ⟨mm, _, entry⟩ := each i below
    exact ⟨_, entry⟩
  · obtain ⟨mm, none, entry⟩ := each i below
    rw [entry, none text, blockKeys, append_nil]
    rfl

/-- The keys of a block depend on the adapter and the salt. -/
theorem blockKeys_congr (lora : r'.loraRequest = r.loraRequest)
    (salt : r'.cacheSalt = r.cacheSalt) (start : Nat) (mm : List ExtraKey) :
    r'.blockKeys start mm = r.blockKeys start mm := by
  have loraKeys : genLoraExtraHashKeys r' = genLoraExtraHashKeys r := by
    unfold genLoraExtraHashKeys
    rw [lora]
  have saltKeys : r'.saltKey = r.saltKey := by
    unfold saltKey
    rw [salt]
  unfold blockKeys cacheSaltKeys
  rw [loraKeys, saltKeys]

/-- The tokens of a full block are the same after more tokens. -/
theorem blockTokens_append (sent : r'.toEngineCoreRequest = r.toEngineCoreRequest)
    (output : r'.outputTokenIds = r.outputTokenIds ++ tokens)
    (full : (i + 1) * blockSize ≤ r.numTokens) :
    (r'.allTokenIds.drop (i * blockSize)).take blockSize =
      (r.allTokenIds.drop (i * blockSize)).take blockSize := by
  have all : r'.allTokenIds = r.allTokenIds ++ tokens := by
    unfold allTokenIds
    rw [output, sent, append_assoc]
  unfold numTokens at full
  rw [Nat.add_mul, Nat.one_mul] at full
  rw [all, drop_append_of_le_length (by omega),
    take_append_of_le_length (by rw [length_drop]; omega)]

/-- What a request's hashes cover does not change when tokens are appended. -/
theorem blockInput_append (sent : r'.toEngineCoreRequest = r.toEngineCoreRequest)
    (output : r'.outputTokenIds = r.outputTokenIds ++ tokens)
    (full : (i + 1) * blockSize ≤ r.numTokens) :
    r'.blockInput blockSize i = r.blockInput blockSize i := by
  have keys : r'.textKeys (i * blockSize) = r.textKeys (i * blockSize) := by
    have same := blockKeys_congr (congrArg (·.loraRequest) sent) (congrArg (·.cacheSalt) sent) (i * blockSize) []
    unfold blockKeys at same
    rw [append_nil, append_nil] at same
    exact same
  unfold blockInput
  rw [blockTokens_append sent output full, keys]

namespace Chained

/-- A request without hashes. -/
theorem empty (none : r.blockHashes = []) : r.Chained hasher blockSize where
  inputs := ⟨[], by rw [none]; rfl, fun i below => by simp at below, fun _ i below => by simp at below⟩
  within := by rw [none]; simp

variable (chained : r.Chained hasher blockSize)

include chained

/-- More tokens leave the chain of the hashed blocks as it is. -/
theorem longer (sent : r'.toEngineCoreRequest = r.toEngineCoreRequest)
    (output : r'.outputTokenIds = r.outputTokenIds ++ tokens)
    (hashes : r'.blockHashes = r.blockHashes) : r'.Chained hasher blockSize := by
  obtain ⟨xs, eq, each, text⟩ := chained.inputs
  have length : r.blockHashes.length = xs.length := by rw [eq, length_chain]
  have full : ∀ i < xs.length, (i + 1) * blockSize ≤ r.numTokens := fun i below =>
    (Nat.mul_le_mul_right _ (by omega)).trans chained.within
  refine ⟨⟨xs, by rw [hashes]; exact eq, fun i below => ?_, fun none i below => ?_⟩, ?_⟩
  · rw [blockTokens_append sent output (full i below)]
    exact each i below
  · have mm : r.mmFeatures = [] := by rw [← congrArg (·.mmFeatures) sent]; exact none
    rw [text mm i below, blockInput_append sent output (full i below)]
  · have total : r'.numTokens = r.numTokens + tokens.length := by
      unfold numTokens allTokenIds
      rw [sent, output]
      simp only [length_append]
      omega
    have within := chained.within
    rw [hashes, total]
    omega

/-- The chain reads what was sent, the output and the hashes. -/
theorem same (sent : r'.toEngineCoreRequest = r.toEngineCoreRequest)
    (output : r'.outputTokenIds = r.outputTokenIds) (hashes : r'.blockHashes = r.blockHashes) :
    r'.Chained hasher blockSize :=
  chained.longer sent (output.trans (append_nil _).symm) hashes

/-- No request repeats a block hash. -/
theorem nodup (acyclic : hasher.Acyclic) : r.blockHashes.Nodup := by
  obtain ⟨xs, eq, _⟩ := chained.inputs
  rw [eq]
  exact acyclic.nodup_chain xs

/-- Hashing the full blocks that have no hash yet continues the chain. -/
theorem extend (done : requestBlockHasher hasher blockSize r = .ok hashes) :
    ({ r with blockHashes := r.blockHashes ++ hashes } : Request H).Chained hasher blockSize := by
  obtain ⟨xs, eq, each, text⟩ := chained.inputs
  obtain ⟨ys, count, more, later, tokens⟩ := hashBlocksFrom_spec done
  have length : r.blockHashes.length = xs.length := by rw [eq, length_chain]
  have joined : r.blockHashes ++ hashes =
      chain hasher.hashFunction hasher.noneHash (xs ++ ys) := by
    rw [chain_append, ← getLast?_chain, ← eq, ← more]
  -- The new blocks stand behind the old ones.
  have position : ∀ i, ¬ i < xs.length → r.blockHashes.length * blockSize +
      (i - xs.length) * blockSize = i * blockSize := by
    intro i beyond
    rw [length, ← Nat.add_mul]
    congr 1
    omega
  refine ⟨⟨xs ++ ys, joined, fun i below => ?_, fun none i below => ?_⟩, ?_⟩
  · rw [length_append, count] at below
    rw [getElem?_append]
    split
    · exact each i (by assumption)
    · rename_i beyond
      have here := later (i - xs.length) (by omega)
      rw [position i beyond] at here
      exact here
  · rw [length_append, count] at below
    rw [getElem?_append]
    split
    · exact text none i (by assumption)
    · rename_i beyond
      have here := tokens none (i - xs.length) (by omega)
      rw [position i beyond] at here
      exact here
  · show (r.blockHashes ++ hashes).length * blockSize ≤ r.numTokens
    rw [joined, length_chain, length_append, count, Nat.add_mul, ← length]
    have fits := Nat.div_mul_le_self (r.numTokens - r.blockHashes.length * blockSize) blockSize
    have within := chained.within
    omega

variable {newBlockHashes : Request H → Except Err (List H)}

omit chained in
/-- A new request is chained. -/
theorem create {req : EngineCoreRequest} (new : Request.New newBlockHashes req r)
    (hashing : newBlockHashes = requestBlockHasher hasher blockSize ∨ ∀ r, newBlockHashes r = .ok []) :
    r.Chained hasher blockSize := by
  have hashes := new.hashes
  rcases hashing with eq | off
  · rw [eq] at hashes
    have start : ({ r with blockHashes := [] } : Request H).Chained hasher blockSize := .empty rfl
    have done := start.extend hashes
    exact done.same rfl rfl rfl
  · rw [off] at hashes
    exact .empty (Except.ok.inj hashes).symm

/-- Appending a token keeps the chain, and may add its next hash. -/
theorem append {token : TokenId} (done : appendOutputTokenId newBlockHashes r token = .ok r')
    (hashing : newBlockHashes = requestBlockHasher hasher blockSize ∨ ∀ r, newBlockHashes r = .ok []) :
    r'.Chained hasher blockSize := by
  obtain ⟨hashes, hashed, built⟩ := bind_eq_ok.mp done
  cases built
  -- The tokens of the blocks hashed before are the same after the append.
  have longer : ({ r with outputTokenIds := r.outputTokenIds ++ [token] } : Request H).Chained hasher
      blockSize := chained.longer rfl rfl rfl
  rcases hashing with eq | off
  · rw [eq] at hashed
    exact longer.extend hashed
  · rw [off] at hashed
    cases hashed
    exact longer.same rfl rfl (by simp)

end Chained

end Request

end Mimir
