import Mimir.Python.Seq
import Mimir.Request.Types

/-! The chained hashes of a request's full blocks. -/

namespace Mimir

open Python

/-- A value mixed into a block hash beside its tokens: a number or a string. -/
inductive ExtraKey where
  | int (z : Int)
  | str (s : String)
  deriving DecidableEq

/-- The block hash function, and the parent of every first block. -/
structure BlockHasher (H : Type) where
  hashFunction : H × List TokenId × Option (List ExtraKey) → H
  noneHash : H

/-- A hash without collisions, whose values never equal the seed of the chain. -/
structure BlockHasher.CollisionFree {H : Type} (hasher : BlockHasher H) : Prop where
  injective : Function.Injective hasher.hashFunction
  seed : ∀ input, hasher.hashFunction input ≠ hasher.noneHash

/-- The free hash: a hash is the term of its own computation. -/
inductive FreeHash where
  | seed
  | node (parent : FreeHash) (tokens : List TokenId) (extraKeys : Option (List ExtraKey))
  deriving DecidableEq

/-- Hashing without any loss. -/
def freeHasher : BlockHasher FreeHash where
  hashFunction := fun (parent, tokens, extraKeys) => .node parent tokens extraKeys
  noneHash := .seed

/-- The free hash has no collisions, so the assumption can be met. -/
theorem freeHasher_collisionFree : freeHasher.CollisionFree where
  injective := by
    rintro ⟨p, t, k⟩ ⟨p', t', k'⟩ same
    cases same
    rfl
  seed := by
    rintro ⟨p, t, k⟩ same
    cases same

section

variable {H : Type}

/-- The walk over the multimodal inputs from one index on, collecting those in the block. -/
def mmExtraHashKeysFrom (startTokenIdx endTokenIdx : Nat) : List MmFeature → Nat → List ExtraKey × Nat
  | [], idx => ([], idx)
  | mm :: rest, idx =>
    if endTokenIdx > mm.offset then
      if startTokenIdx > mm.offset + mm.length then
        -- This block has passed the current input.
        mmExtraHashKeysFrom startTokenIdx endTokenIdx rest (idx + 1)
      else if endTokenIdx ≥ mm.offset + mm.length then
        -- The input ends in this block, which may also contain the next one.
        let (keys, next) := mmExtraHashKeysFrom startTokenIdx endTokenIdx rest (idx + 1)
        (.str mm.identifier :: keys, next)
      else ([.str mm.identifier], idx)
    else ([], idx)

/-- `_gen_mm_extra_hash_keys`; a negative start index counts from the last input. -/
def genMmExtraHashKeys (r : Request H) (startTokenIdx endTokenIdx : Nat) (startMmIdx : Int) :
    Except Err (List ExtraKey × Int) :=
  match r.mmFeatures.getLast? with
  | none => .ok ([], startMmIdx)
  | some last =>
    if last.offset + last.length < startTokenIdx then .ok ([], startMmIdx)
    else do
      require (-startMmIdx ≤ r.mmFeatures.length) ⟨.assertion, .genMmExtraHashKeys⟩
      let idx := sliceIndex r.mmFeatures.length startMmIdx
      let (keys, next) :=
        mmExtraHashKeysFrom startTokenIdx endTokenIdx (r.mmFeatures.drop idx) idx
      .ok (keys, next)

/-- `_gen_lora_extra_hash_keys`. -/
def genLoraExtraHashKeys (r : Request H) : List ExtraKey :=
  match r.loraRequest with
  | none => []
  | some loraIntId => [.int loraIntId]

/-- The salt enters the hash of the first block only. -/
def cacheSaltKeys (r : Request H) (startTokenIdx : Nat) : List ExtraKey :=
  match r.saltKey with
  | some salt => if startTokenIdx = 0 then [.str salt] else []
  | none => []

/-- `generate_block_hash_extra_keys`: no keys at all is a case of its own. -/
def generateBlockHashExtraKeys (r : Request H) (startTokenIdx endTokenIdx : Nat)
    (startMmIdx : Int) : Except Err (Option (List ExtraKey) × Int) := do
  let (mmExtraKeys, newStartMmIdx) ← genMmExtraHashKeys r startTokenIdx endTokenIdx startMmIdx
  let extraKeys := genLoraExtraHashKeys r ++ mmExtraKeys ++ cacheSaltKeys r startTokenIdx
  .ok (if extraKeys.isEmpty then none else some extraKeys, newStartMmIdx)

variable (hasher : BlockHasher H)

/-- `hash_block_tokens`. -/
def hashBlockTokens (parentBlockHash : Option H) (currBlockTokenIds : List TokenId)
    (extraKeys : Option (List ExtraKey)) : H :=
  hasher.hashFunction (parentBlockHash.getD hasher.noneHash, currBlockTokenIds, extraKeys)

/-- The hashing loop over a number of full blocks, from a token index on. -/
def hashBlocksFrom (blockSize : Nat) (r : Request H) :
    Nat → Nat → Int → Option H → Except Err (List H)
  | 0, _, _, _ => .ok []
  | count + 1, startTokenIdx, currMmIdx, prevBlockHashValue => do
    let (extraKeys, nextMmIdx) ←
      generateBlockHashExtraKeys r startTokenIdx (startTokenIdx + blockSize) currMmIdx
    let blockTokens := (r.allTokenIds.drop startTokenIdx).take blockSize
    let blockHash := hashBlockTokens hasher prevBlockHashValue blockTokens extraKeys
    let rest ← hashBlocksFrom blockSize r count (startTokenIdx + blockSize) nextMmIdx
      (some blockHash)
    .ok (blockHash :: rest)

/-- `request_block_hasher`: the hashes of the full blocks that have none yet. -/
def requestBlockHasher (blockSize : Nat) (r : Request H) : Except Err (List H) :=
  let startTokenIdx := r.blockHashes.length * blockSize
  -- The loop runs while another whole block fits below `num_tokens`.
  hashBlocksFrom hasher blockSize r ((r.numTokens - startTokenIdx) / blockSize) startTokenIdx
    (if startTokenIdx > 0 then -1 else 0) r.blockHashes.getLast?

end

section

variable {H : Type} (newBlockHashes : Request H → Except Err (List H))

/-- `append_output_token_ids` for one token: the token is appended and new full blocks are hashed. -/
def Request.appendOutputTokenId (r : Request H) (token : TokenId) : Except Err (Request H) := do
  let r := { r with outputTokenIds := r.outputTokenIds ++ [token] }
  let newHashes ← newBlockHashes r
  .ok { r with blockHashes := r.blockHashes ++ newHashes }

/-- `append_output_token_ids` for a list of tokens. -/
def Request.appendOutputTokenIds (r : Request H) (tokens : List TokenId) : Except Err (Request H) := do
  let r := { r with outputTokenIds := r.outputTokenIds ++ tokens }
  let newHashes ← newBlockHashes r
  .ok { r with blockHashes := r.blockHashes ++ newHashes }

/-- `Request.__init__` up to the block hashes: limits, first status and agent metadata. -/
def Request.fromEngineCoreRequest (req : EngineCoreRequest) : Except Err (Request H) :=
  let extra := (req.samplingParams.bind (·.extraArgs)).getD {}
  if req.poolingParams then
    .ok { req with
      maxTokens := 1
      jobId := extra.jobId
      isLastStep := extra.isLastStep.map coerceBool }
  else
    match req.samplingParams with
    | none => .error ⟨.value, .requestParams⟩
    | some sampling =>
      .ok { req with
        maxTokens := sampling.maxTokens
        status := if sampling.guidedDecoding then .waitingForFsm else .waiting
        jobId := extra.jobId
        isLastStep := extra.isLastStep.map coerceBool
        hasToolCall := extra.hasToolCall.map coerceBool
        toolDuration := extra.toolDuration }

/-- `Request.from_engine_core_request`: a new object, its full prompt blocks hashed. -/
def Request.create (req : EngineCoreRequest) : Except Err (Request H) := do
  let r ← Request.fromEngineCoreRequest req
  let newHashes ← newBlockHashes r
  .ok { r with blockHashes := newHashes }

/-- A new request object: what the frontend sent, waiting, with nothing computed. -/
structure Request.New (req : EngineCoreRequest) (r : Request H) : Prop where
  sent : r.toEngineCoreRequest = req
  status : r.status = .waiting ∨ r.status = .waitingForFsm
  output : r.outputTokenIds = []
  placeholders : r.numOutputPlaceholders = 0
  drafts : r.specTokenIds = []
  computed : r.numComputedTokens = 0
  hashes : newBlockHashes { r with blockHashes := [] } = .ok r.blockHashes

/-- What creating a request object gives. -/
theorem Request.create_new {req : EngineCoreRequest} {r : Request H}
    (done : Request.create newBlockHashes req = .ok r) : Request.New newBlockHashes req r := by
  obtain ⟨r₀, built, tail⟩ := bind_eq_ok.mp done
  obtain ⟨hashes, hashed, eq⟩ := bind_eq_ok.mp tail
  cases eq
  unfold Request.fromEngineCoreRequest at built
  dsimp only at built
  split at built
  · cases built
    exact ⟨rfl, .inl rfl, rfl, rfl, rfl, rfl, hashed⟩
  · split at built
    · cases built
    · rename_i sampling _
      cases built
      refine ⟨rfl, ?_, rfl, rfl, rfl, rfl, hashed⟩
      dsimp only
      split
      · exact .inr rfl
      · exact .inl rfl

end

end Mimir
