import Mimir.Python.Except
import Mathlib.Data.List.Perm.Basic

/-! Binary heaps kept in a list, for an order whose comparison may raise. -/

namespace Mimir.Python

variable {ε α : Type}

/-- Exchanging two positions of a list. -/
def swapAt (xs : List α) (i j : Nat) : List α := (xs.toArray.swapIfInBounds i j).toList

/-- An exchange keeps the elements. -/
theorem swapAt_perm (xs : List α) (i j : Nat) : (swapAt xs i j).Perm xs := by
  unfold swapAt
  rw [Array.swapIfInBounds_def]
  split
  · split
    · exact (Array.swap_perm ..).toList
    · exact .refl _
  · exact .refl _

section

variable (lt : α → α → Except ε Bool)

/-- Moving the item at `pos` towards `startpos` until its parent is not above it. -/
def siftdown (startpos : Nat) : Nat → List α → Nat → Except ε (List α)
  | 0, heap, _ => .ok heap
  | turns + 1, heap, pos =>
    if startpos < pos then
      match heap[pos]?, heap[(pos - 1) / 2]? with
      | some item, some parent => do
        let below ← lt item parent
        if below then siftdown startpos turns (swapAt heap pos ((pos - 1) / 2)) ((pos - 1) / 2)
        else .ok heap
      | _, _ => .ok heap
    else .ok heap

/-- The smaller child of a position, the right one on equal comparison. -/
def smallerChild (heap : List α) (pos : Nat) : Except ε Nat :=
  match heap[2 * pos + 1]?, heap[2 * pos + 2]? with
  | some left, some right => do
    let below ← lt left right
    .ok (if below then 2 * pos + 1 else 2 * pos + 2)
  | _, _ => .ok (2 * pos + 1)

/-- Moving the item at `pos` down to a leaf, then back up to its place. -/
def siftup (startpos : Nat) : Nat → List α → Nat → Except ε (List α)
  | 0, heap, pos => siftdown lt startpos (pos + 1) heap pos
  | turns + 1, heap, pos =>
    if 2 * pos + 1 < heap.length then do
      let child ← smallerChild lt heap pos
      siftup startpos turns (swapAt heap pos child) child
    else siftdown lt startpos (pos + 1) heap pos

/-- `heapq.heappush`. -/
def heappush (heap : List α) (item : α) : Except ε (List α) :=
  siftdown lt 0 (heap.length + 1) (heap ++ [item]) heap.length

/-- `heapq.heappop` on a heap known not to be empty. -/
def heappop (first : α) (rest : List α) : Except ε (α × List α) :=
  match rest.getLast? with
  | none => .ok (first, [])
  | some last => do
    let heap ← siftup lt 0 (rest.length + 1) (last :: rest.dropLast) 0
    .ok (first, heap)

/-- Sifting every internal position, from the last one to the root. -/
def heapifyFrom : Nat → List α → Except ε (List α)
  | 0, heap => .ok heap
  | pos + 1, heap => do
    let heap ← siftup lt pos (heap.length + 1) heap pos
    heapifyFrom pos heap

/-- `heapq.heapify`. -/
def heapify (heap : List α) : Except ε (List α) := heapifyFrom lt (heap.length / 2) heap

variable {lt} {fail : ε → Prop} (order : ∀ a b, Sat (lt a b) (fun _ => True) fail)
include order

/-- Sifting towards the root only exchanges items, and raises only what a comparison raises. -/
theorem siftdown_sat (startpos turns : Nat) (heap : List α) (pos : Nat) :
    Sat (siftdown lt startpos turns heap pos) (fun out => out.Perm heap) fail := by
  -- The induction follows the turns; each one is a single exchange.
  induction turns generalizing heap pos with
  | zero => exact Sat.ok (.refl _)
  | succ turns ih =>
    simp only [siftdown]
    split
    · split
      · rename_i item parent _ _
        refine Sat.bind (order item parent) fun below _ => ?_
        split
        · exact (ih _ _).mono (fun out moved => moved.trans (swapAt_perm _ _ _)) fun _ h => h
        · exact Sat.ok (.refl _)
      · exact Sat.ok (.refl _)
    · exact Sat.ok (.refl _)

/-- Choosing a child raises only what a comparison raises. -/
theorem smallerChild_sat (heap : List α) (pos : Nat) :
    Sat (smallerChild lt heap pos) (fun _ => True) fail := by
  unfold smallerChild
  split
  · rename_i left right _ _
    exact Sat.bind (order left right) fun _ _ => Sat.ok trivial
  · exact Sat.ok trivial

/-- Sifting towards the leaves only exchanges items. -/
theorem siftup_sat (startpos turns : Nat) (heap : List α) (pos : Nat) :
    Sat (siftup lt startpos turns heap pos) (fun out => out.Perm heap) fail := by
  induction turns generalizing heap pos with
  | zero => exact siftdown_sat order _ _ _ _
  | succ turns ih =>
    simp only [siftup]
    split
    · refine Sat.bind (smallerChild_sat order heap pos) fun child _ => ?_
      exact (ih _ _).mono (fun out moved => moved.trans (swapAt_perm _ _ _)) fun _ h => h
    · exact siftdown_sat order _ _ _ _

/-- A push adds its item and keeps the others. -/
theorem heappush_sat (heap : List α) (item : α) :
    Sat (heappush lt heap item) (fun out => out.Perm (item :: heap)) fail :=
  (siftdown_sat order _ _ _ _).mono
    (fun _ moved => moved.trans (List.perm_append_singleton item heap)) fun _ h => h

/-- A pop returns the root and keeps the others. -/
theorem heappop_sat (first : α) (rest : List α) :
    Sat (heappop lt first rest) (fun out => out.1 = first ∧ out.2.Perm rest) fail := by
  -- The last item takes the root's place before it is sifted.
  unfold heappop
  cases tail : rest.getLast? with
  | none =>
    rw [List.getLast?_eq_none_iff.mp tail]
    exact Sat.ok ⟨rfl, .refl _⟩
  | some last =>
    refine Sat.bind (siftup_sat order _ _ _ _) fun heap sifted => Sat.ok ⟨rfl, ?_⟩
    have whole : rest.dropLast ++ [last] = rest := List.dropLast_append_getLast? last tail
    have moved : (last :: rest.dropLast).Perm (rest.dropLast ++ [last]) :=
      (List.perm_append_singleton last _).symm
    rw [whole] at moved
    exact sifted.trans moved

/-- Rebuilding a heap position by position keeps its items. -/
theorem heapifyFrom_sat (pos : Nat) (heap : List α) :
    Sat (heapifyFrom lt pos heap) (fun out => out.Perm heap) fail := by
  induction pos generalizing heap with
  | zero => exact Sat.ok (.refl _)
  | succ pos ih =>
    refine Sat.bind (siftup_sat order _ _ _ _) fun mid sifted => ?_
    exact (ih mid).mono (fun _ moved => moved.trans sifted) fun _ h => h

/-- Rebuilding a heap keeps its items. -/
theorem heapify_sat (heap : List α) : Sat (heapify lt heap) (fun out => out.Perm heap) fail :=
  heapifyFrom_sat order _ heap

end

end Mimir.Python
