import Mathlib.Data.List.Basic
import Mathlib.Data.List.FinRange
import Mathlib.Logic.Function.Basic
import Mimir.Python.Dict
import Mimir.Python.Except
import Mimir.Request.Types

/-! Rearranging expert weights: what each expert-parallel rank copies, sends and receives. -/

namespace Mimir

open Python

/-- The two index lists of one layer, with one entry for each slot of each rank. -/
structure Placement where
  numRanks : Nat
  numLocalExperts : Nat
  weightCount : Nat
  oldIndices : List Int
  newIndices : List Int
  oldLength : oldIndices.length = numRanks * numLocalExperts
  newLength : newIndices.length = numRanks * numLocalExperts

/-- The weights of one rank: for each tensor, the row of each slot. -/
abbrev Weights (count : Nat) (W : Type) := Fin count → Nat → W

/-- One operation handed to `batch_isend_irecv`, with the expert it is for. -/
inductive P2POp (count : Nat) (W : Type) where
  | isend (expert : Int) (tensor : Fin count) (row : W) (dst : Nat)
  | irecv (expert : Int) (tensor : Fin count) (slot : Nat) (src : Nat)

namespace Placement

variable (p : Placement) {W : Type} (epRank : Nat)

/-- `idx_local_to_global`. -/
def idxLocalToGlobal (localIdx localCnt epRank : Nat) : Nat := epRank * localCnt + localIdx

/-- `global_idx_to_rank`. -/
def globalIdxToRank (globalIdx localCnt : Nat) : Nat := globalIdx / localCnt

/-- The expert a slot of a rank holds before the shuffle. -/
def oldExpert (epRank slot : Nat) : Int :=
  p.oldIndices.getD (idxLocalToGlobal slot p.numLocalExperts epRank) (-1)

/-- The expert a slot of a rank is to hold. -/
def newExpert (epRank slot : Nat) : Int :=
  p.newIndices.getD (idxLocalToGlobal slot p.numLocalExperts epRank) (-1)

/-- One turn of the loops of `get_ep_ranks_with_expert`. -/
def noteRank (idx : Int) (numLocalExperts : Nat) (ranks : List Nat) (entry : Int × Nat) :
    List Nat :=
  if entry.1 = idx then
    -- A rank with several replicas is appended once: its slots follow one another.
    let rank := globalIdxToRank entry.2 numLocalExperts
    if ranks.getLast? = some rank then ranks else ranks ++ [rank]
  else ranks

/-- The ranks of one index list that hold an expert. -/
def ranksWithExpert (idx : Int) (numLocalExperts : Nat) (indices : List Int) : List Nat :=
  indices.zipIdx.foldl (noteRank idx numLocalExperts) []

/-- `get_ep_ranks_with_expert`: who can send an expert, and who has to receive it. -/
def getEpRanksWithExpert (idx : Int) : List Nat × List Nat :=
  let ranksToSend := ranksWithExpert idx p.numLocalExperts p.oldIndices
  let ranksToRecv := ranksWithExpert idx p.numLocalExperts p.newIndices
  -- Ranks that can get the expert locally do not receive it.
  (ranksToSend, ranksToRecv.filter fun rank => rank ∉ ranksToSend)

/-- `is_unchanged`. -/
def isUnchanged (epRank slot : Nat) : Bool :=
  p.oldExpert epRank slot = p.newExpert epRank slot

/-- What step 1 has done so far: the slots it has filled and the buffer they are in. -/
structure LocalCopies (count : Nat) (W : Type) where
  isReceivedLocally : Nat → Bool
  buffer : Weights count W

/-- One turn of step 1: slot `src` may fill slot `dst`. -/
def copyLocal (weights : Weights p.weightCount W) (src : Nat)
    (st : LocalCopies p.weightCount W) (dst : Nat) : LocalCopies p.weightCount W :=
  if st.isReceivedLocally dst then st
  else if p.oldExpert epRank src = -1 ∨ p.newExpert epRank dst = -1 then st
  else if p.oldExpert epRank src = p.newExpert epRank dst then
    { isReceivedLocally := Function.update st.isReceivedLocally dst true
      buffer := fun k => Function.update (st.buffer k) dst (weights k src) }
  else st

/-- Step 1 of `shuffle_layer`: the copies inside the local rank. -/
def copyLocally (weights buffer : Weights p.weightCount W) :
    LocalCopies p.weightCount W :=
  (List.range p.numLocalExperts).foldl
    (fun st src => (List.range p.numLocalExperts).foldl (p.copyLocal epRank weights src) st)
    { isReceivedLocally := p.isUnchanged epRank, buffer := buffer }

/-- The slot that stands for each expert, the first one that is not passed over. -/
def expertLocs (passed : Nat → Bool) (expertOf : Nat → Int) (slots : List Nat) : PyDict Int Nat :=
  slots.foldl (fun locs slot =>
    if passed slot ∨ expertOf slot = -1 ∨ expertOf slot ∈ locs.keys then locs
    else locs.set (expertOf slot) slot) .empty

/-- `experts_send_loc`. -/
def expertsSendLoc : PyDict Int Nat :=
  expertLocs (fun _ => false) (p.oldExpert epRank) (List.range p.numLocalExperts)

/-- `experts_recv_loc`. -/
def expertsRecvLoc (isReceivedLocally : Nat → Bool) :
    PyDict Int Nat :=
  expertLocs isReceivedLocally (p.newExpert epRank) (List.range p.numLocalExperts)

/-- The order of `sorted` on pairs. -/
def pairLe (a b : Int × Nat) : Bool := a.1 < b.1 ∨ (a.1 = b.1 ∧ a.2 ≤ b.2)

/-- `sorted(locs.items())`. -/
def sortedItems (locs : PyDict Int Nat) : List (Int × Nat) := locs.items.mergeSort pairLe

/-- `list.index`. -/
def indexOf (ranks : List Nat) (rank : Nat) : Except Err Nat :=
  orRaise (ranks.findIdx? (· == rank)) ⟨.value, .expertRanks⟩

/-- The ranks a sender of an expert serves. -/
def recvRanks (expert : Int) (epRank : Nat) : Except Err (List Nat) := do
  let (ranksToSend, ranksToRecv) := p.getEpRanksWithExpert expert
  -- The division raises when nobody holds the expert.
  require (ranksToSend.length ≠ 0) ⟨.runtime, .expertRanks⟩
  let numDstPerSender := ranksToRecv.length / ranksToSend.length
  let senderPos ← indexOf ranksToSend epRank
  let recvBegin := senderPos * numDstPerSender
  let served := (ranksToRecv.drop recvBegin).take numDstPerSender
  -- The first senders also take one receiver of the remainder each.
  let remainderStart := ranksToSend.length * numDstPerSender
  let recverPos := remainderStart + senderPos
  pure (served ++ ranksToRecv[recverPos]?.toList)

/-- The rank a receiver of an expert is served by. -/
def sourceRank (expert : Int) (epRank : Nat) : Except Err Nat := do
  let (ranksToSend, ranksToRecv) := p.getEpRanksWithExpert expert
  require (ranksToSend.length ≠ 0) ⟨.runtime, .expertRanks⟩
  let numDstPerSender := ranksToRecv.length / ranksToSend.length
  let recverPos ← indexOf ranksToRecv epRank
  let remainderStart := ranksToSend.length * numDstPerSender
  if recverPos < remainderStart then
    orRaise ranksToSend[recverPos / numDstPerSender]? ⟨.index, .expertRanks⟩
  else
    orRaise ranksToSend[recverPos - remainderStart]? ⟨.index, .expertRanks⟩

/-- Step 2 for one expert: a send of every tensor to every rank served. -/
def sendExpert (weights : Weights p.weightCount W)
    (item : Int × Nat) : Except Err (List (P2POp p.weightCount W)) := do
  let served ← p.recvRanks item.1 epRank
  pure (served.flatMap fun dst =>
    (List.finRange p.weightCount).map fun k => .isend item.1 k (weights k item.2) dst)

/-- Step 3 for one expert: a receive of every tensor from the rank that serves this one. -/
def recvExpert (item : Int × Nat) : Except Err (List (P2POp p.weightCount W)) := do
  let src ← p.sourceRank item.1 epRank
  pure ((List.finRange p.weightCount).map fun k => .irecv item.1 k item.2 src)

/-- Steps 2 and 3 of `shuffle_layer`: the operations a rank hands to the process group. -/
def p2pOps (weights : Weights p.weightCount W)
    (isReceivedLocally : Nat → Bool) : Except Err (List (P2POp p.weightCount W)) := do
  -- Both loops go by ascending expert, which is what makes sends and receives match.
  let sends ← (sortedItems (p.expertsSendLoc epRank)).mapM (p.sendExpert epRank weights)
  let recvs ← (sortedItems (p.expertsRecvLoc epRank isReceivedLocally)).mapM (p.recvExpert epRank)
  pure (sends.flatten ++ recvs.flatten)

end Placement

namespace P2POp

variable {count : Nat} {W : Type}

/-- The sends of a rank to one other rank: expert, tensor and row, in order. -/
def sendsTo (dst : Nat) : List (P2POp count W) → List (Int × Fin count × W) :=
  List.filterMap fun
    | isend expert tensor row target => if target = dst then some (expert, tensor, row) else none
    | irecv .. => none

/-- The receives of a rank from one other rank: expert, tensor and buffer slot, in order. -/
def recvsFrom (src : Nat) : List (P2POp count W) → List (Int × Fin count × Nat) :=
  List.filterMap fun
    | isend .. => none
    | irecv expert tensor slot source =>
      if source = src then some (expert, tensor, slot) else none

/-- What an operation is for, seen from either of its ends. -/
def label {α : Type} (entry : Int × Fin count × α) : Int × Fin count := (entry.1, entry.2.1)

end P2POp

namespace Placement

variable (p : Placement) {W : Type} (epRank : Nat)

/-- The rows that reach a rank: between two ranks, the n-th send meets the n-th receive. -/
def arrivals (ops : Nat → List (P2POp p.weightCount W)) (epRank : Nat) :
    List ((Int × Fin p.weightCount × Nat) × (Int × Fin p.weightCount × W)) :=
  (List.range p.numRanks).flatMap fun src =>
    (P2POp.recvsFrom src (ops epRank)).zip (P2POp.sendsTo epRank (ops src))

/-- Every operation of a rank finds its partner, so that all its waits return. -/
def Completes (ops : Nat → List (P2POp p.weightCount W)) (epRank : Nat) : Prop :=
  ∀ other < p.numRanks,
    (P2POp.recvsFrom other (ops epRank)).length = (P2POp.sendsTo epRank (ops other)).length ∧
      (P2POp.sendsTo other (ops epRank)).length = (P2POp.recvsFrom epRank (ops other)).length

instance (p : Placement) (ops : Nat → List (P2POp p.weightCount W)) (epRank : Nat) :
    Decidable (p.Completes ops epRank) :=
  inferInstanceAs (Decidable (∀ other < p.numRanks, _))

/-- A received row lands in its buffer slot. -/
def land {count : Nat} (buffer : Weights count W)
    (arrival : (Int × Fin count × Nat) × (Int × Fin count × W)) : Weights count W :=
  Function.update buffer arrival.1.2.1
    (Function.update (buffer arrival.1.2.1) arrival.1.2.2 arrival.2.2.2)

/-- Step 4 of `shuffle_layer`; an operation without a partner never returns. -/
def exchange (ops : Nat → List (P2POp p.weightCount W)) (epRank : Nat)
    (buffer : Weights p.weightCount W) : Except Err (Weights p.weightCount W) := do
  require (p.Completes ops epRank) ⟨.fuel, .expertRanks⟩
  pure ((p.arrivals ops epRank).foldl land buffer)

/-- The buffer slot step 5 copies into a slot, if it copies one. -/
def backSource (isReceivedLocally : Nat → Bool) (dst : Nat) :
    Except Err (Option Nat) :=
  if p.isUnchanged epRank dst then pure none
  else if isReceivedLocally dst then pure (some dst)
  else if p.newExpert epRank dst = -1 then pure none
  else do
    let src ← orRaise ((p.expertsRecvLoc epRank isReceivedLocally).get? (p.newExpert epRank dst))
      ⟨.key, .expertRanks⟩
    pure (some src)

/-- One turn of step 5. -/
def copyBackSlot (isReceivedLocally : Nat → Bool)
    (buffer weights : Weights p.weightCount W) (dst : Nat) :
    Except Err (Weights p.weightCount W) := do
  match ← p.backSource epRank isReceivedLocally dst with
  | none => pure weights
  | some src => pure fun k => Function.update (weights k) dst (buffer k src)

/-- Step 5 of `shuffle_layer`: from the buffer back to the weights. -/
def copyBack (isReceivedLocally : Nat → Bool)
    (buffer weights : Weights p.weightCount W) : Except Err (Weights p.weightCount W) :=
  (List.range p.numLocalExperts).foldlM (p.copyBackSlot epRank isReceivedLocally buffer) weights

/-- `shuffle_layer` on one rank, given what every rank hands to the process group. -/
def shuffleLayer (weights buffer : Weights p.weightCount W)
    (ops : Nat → List (P2POp p.weightCount W)) : Except Err (Weights p.weightCount W) := do
  let copies := p.copyLocally epRank weights buffer
  let received ← p.exchange ops epRank copies.buffer
  p.copyBack epRank copies.isReceivedLocally received weights

/-- The operations of a rank, after its local copies. -/
def rankOps (weights buffer : Nat → Weights p.weightCount W) (epRank : Nat) :
    Except Err (List (P2POp p.weightCount W)) :=
  p.p2pOps epRank (weights epRank)
    (p.copyLocally epRank (weights epRank) (buffer epRank)).isReceivedLocally

end Placement

end Mimir
