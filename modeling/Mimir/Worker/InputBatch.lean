import Mimir.Sched.State
import Mimir.Theory.Exchange

/-! The persistent batch of a worker: one row of token ids and block ids for each scheduled request. -/

namespace Mimir

open Python Theory

/-- A row of the persistent batch: its part of the token buffer, its counts and its block table rows. -/
structure BatchRow where
  /-- `token_ids_cpu[i]`, by position. -/
  tokenIds : Nat → Int
  /-- `num_tokens[i]`, which may include draft tokens. -/
  numTokens : Nat
  numTokensNoSpec : Nat
  numComputedTokens : Int
  /-- The row of each group's block table. -/
  blockIds : List (List BlockId)

/-- `InputBatch`, as far as the reordering of its requests reads and writes it. -/
structure InputBatch where
  /-- `_req_ids`; nothing where a request was removed. -/
  reqIds : List (Option RequestId)
  reqIdToIndex : PyDict RequestId Nat
  rows : Nat → BatchRow
  isPoolingModel : Bool
  /-- `batch_update_builder.moved`, of which the reordering only adds swaps. -/
  moved : List (Nat × Nat)

namespace InputBatch

/-- `swap_states`; a pooling model keeps no record of its swaps. -/
def swapStates (b : InputBatch) (i₁ i₂ : Nat) : Except Err InputBatch := do
  let slot₁ ← orRaise b.reqIds[i₁]? ⟨.index, .batchSlot⟩
  let slot₂ ← orRaise b.reqIds[i₂]? ⟨.index, .batchSlot⟩
  let oldId₁ ← orRaise slot₁ ⟨.assertion, .batchSlot⟩
  let oldId₂ ← orRaise slot₂ ⟨.assertion, .batchSlot⟩
  .ok { b with
    reqIds := (b.reqIds.set i₁ (some oldId₂)).set i₂ (some oldId₁)
    reqIdToIndex := (b.reqIdToIndex.set oldId₁ i₂).set oldId₂ i₁
    rows := Function.update (Function.update b.rows i₁ (b.rows i₂)) i₂ (b.rows i₁)
    moved := if b.isPoolingModel then b.moved else b.moved ++ [(i₁, i₂)] }

/-- `swap_states` for a list of index pairs. -/
def swapAll : List (Nat × Nat) → InputBatch → Except Err InputBatch
  | [], b => .ok b
  | (i₁, i₂) :: rest, b => do
    let b ← b.swapStates i₁ i₂
    swapAll rest b

/-- The loop over prefills from the front and decodes from the back. -/
def splitLoop (numDecodes : Nat) : List (Nat × Nat) → Bool → InputBatch → Except Err (Bool × InputBatch)
  | [], modifiedBatch, b => .ok (modifiedBatch, b)
  | (prefill, decode) :: rest, modifiedBatch, b =>
    if decode < numDecodes then .ok (modifiedBatch, b)
    else do
      let b ← b.swapStates prefill decode
      splitLoop numDecodes rest true b

/-- `reorder_batch_to_split_decodes_and_prefills`; a removed request has no scheduled tokens to read. -/
def reorderBatchToSplitDecodesAndPrefills (decodeThreshold : Nat)
    (numScheduledTokens : PyDict RequestId Int) (b : InputBatch) : Except Err (Bool × InputBatch) := do
  let numTokens ← b.reqIds.mapM fun id =>
    orRaise (id.bind numScheduledTokens.get?) ⟨.key, .missingIndex⟩
  let decodes := indicesWhere (fun n => decide (n ≤ (decodeThreshold : Int))) numTokens 0
  let prefills := indicesWhere (fun n => !decide (n ≤ (decodeThreshold : Int))) numTokens 0
  splitLoop decodes.length (prefills.zip decodes.reverse) false b

end InputBatch

end Mimir
