import Mimir.Python.Heapq
import Mimir.Request.Types

/-! The waiting queue: first come first served, or a heap ordered by priority and arrival time. -/

namespace Mimir

open Python

/-- The scheduling policies. -/
inductive SchedulingPolicy where
  | fcfs
  | priority
  | mimir
  deriving DecidableEq, Repr

section

variable {H : Type} (objs : Ref → Request H) (policy : SchedulingPolicy)

/-- The order of heap entries `(priority, arrival_time, request)`; requests themselves have no order. -/
def heapEntryLt (a b : Ref) : Except Err Bool :=
  if (objs a).priority ≠ (objs b).priority then .ok ((objs a).priority < (objs b).priority)
  else if ¬ (objs a).arrivalTime.eq (objs b).arrivalTime then
    .ok ((objs a).arrivalTime.lt (objs b).arrivalTime)
  else if a = b then .ok false
  else .error ⟨.type, .heapComparison⟩

/-- The keys `max` compares when a request is preempted by priority. -/
def preemptionKeyLt (a b : Ref) : Bool :=
  if (objs a).priority ≠ (objs b).priority then (objs a).priority < (objs b).priority
  else (objs a).arrivalTime.lt (objs b).arrivalTime

/-- `max(running, key=...)`: the first request whose key no later one exceeds. -/
def maxByPreemptionKey (best : Ref) : List Ref → Ref
  | [] => best
  | r :: rest => maxByPreemptionKey (if preemptionKeyLt objs best r then r else best) rest

/-- `add_request` of the queue the policy selects. -/
def queueAdd (queue : List Ref) (r : Ref) : Except Err (List Ref) :=
  match policy with
  | .priority => heappush (heapEntryLt objs) queue r
  | _ => .ok (queue ++ [r])

/-- `pop_request`. -/
def queuePop : List Ref → Except Err (Ref × List Ref)
  | [] => .error ⟨.index, .emptyQueue⟩
  | first :: rest =>
    match policy with
    | .priority => heappop (heapEntryLt objs) first rest
    | _ => .ok (first, rest)

/-- `peek_request`. -/
def queuePeek : List Ref → Except Err Ref
  | [] => .error ⟨.index, .emptyQueue⟩
  | first :: _ => .ok first

/-- `prepend_request`: a heap has no front to prepend to. -/
def queuePrepend (queue : List Ref) (r : Ref) : Except Err (List Ref) :=
  match policy with
  | .priority => heappush (heapEntryLt objs) queue r
  | _ => .ok (r :: queue)

/-- Iterating over a heap pops a copy of it; each request popped is pushed to the other heap. -/
def pushAllInOrder : Nat → List Ref → List Ref → Except Err (List Ref)
  | 0, _, queue => .ok queue
  | _ + 1, [], queue => .ok queue
  | turns + 1, first :: rest, queue => do
    let (r, copy) ← heappop (heapEntryLt objs) first rest
    let queue ← heappush (heapEntryLt objs) queue r
    pushAllInOrder turns copy queue

/-- `prepend_requests`. -/
def queuePrependAll (queue requests : List Ref) :
    Except Err (List Ref) :=
  match policy with
  | .priority => pushAllInOrder objs requests.length requests queue
  | _ => .ok (requests ++ queue)

/-- `remove_requests`. -/
def queueRemoveAll (queue requests : List Ref) :
    Except Err (List Ref) :=
  let kept := queue.filter fun r => !decide (r ∈ requests)
  match policy with
  | .priority => heapify (heapEntryLt objs) kept
  | _ => .ok kept

end

/-- `remove_all`: a single item is removed once, several items are filtered out. -/
def removeAll (list items : List Ref) : List Ref :=
  match items with
  | [] => list
  | [item] => list.erase item
  | _ => list.filter fun r => !decide (r ∈ items)

section

variable {H : Type} (objs : Ref → Request H) (policy : SchedulingPolicy)

/-- The exceptions of a queue: incomparable heap entries, and popping when empty. -/
def QueueErr (e : Err) : Prop := e.site = .heapComparison ∨ e.site = .emptyQueue

/-- Comparing heap entries raises only on a tie between two requests. -/
theorem heapEntryLt_sat (a b : Ref) : Sat (heapEntryLt objs a b) (fun _ => True) QueueErr := by
  unfold heapEntryLt
  split
  · exact Sat.ok trivial
  · split
    · exact Sat.ok trivial
    · split
      · exact Sat.ok trivial
      · exact Sat.error (.inl rfl)

/-- Adding to a queue of either kind adds one request. -/
theorem queueAdd_sat (queue : List Ref) (r : Ref) :
    Sat (queueAdd objs policy queue r) (fun out => out.Perm (r :: queue)) QueueErr := by
  unfold queueAdd
  split
  · exact heappush_sat (heapEntryLt_sat objs) _ _
  · exact Sat.ok (List.perm_append_singleton r queue)

/-- Prepending adds one request, in front of a queue that is no heap. -/
theorem queuePrepend_sat (queue : List Ref) (r : Ref) : Sat (queuePrepend objs policy queue r)
      (fun out => out.Perm (r :: queue) ∧ (policy ≠ .priority → out = r :: queue)) QueueErr := by
  cases policy with
  | fcfs => exact Sat.ok ⟨.refl _, fun _ => rfl⟩
  | mimir => exact Sat.ok ⟨.refl _, fun _ => rfl⟩
  | priority =>
    exact (heappush_sat (heapEntryLt_sat objs) _ _).mono (fun _ pushed => ⟨pushed, fun no => absurd rfl no⟩)
      fun _ h => h

/-- A pop takes the first request and keeps the others. -/
theorem queuePop_sat (queue : List Ref) : Sat (queuePop objs policy queue)
      (fun out => queue.head? = some out.1 ∧ queue.Perm (out.1 :: out.2) ∧
        (policy ≠ .priority → queue = out.1 :: out.2)) QueueErr := by
  cases queue with
  | nil => exact Sat.error (.inr rfl)
  | cons first rest =>
    cases policy with
    | fcfs => exact Sat.ok ⟨rfl, .refl _, fun _ => rfl⟩
    | mimir => exact Sat.ok ⟨rfl, .refl _, fun _ => rfl⟩
    | priority =>
      refine (heappop_sat (heapEntryLt_sat objs) first rest).mono ?_ fun _ h => h
      rintro ⟨r, out⟩ ⟨rfl, moved⟩
      exact ⟨rfl, moved.symm.cons _, fun no => absurd rfl no⟩

/-- Moving a heap into another keeps the requests of both. -/
theorem pushAllInOrder_sat {turns : Nat} {copy : List Ref} (queue : List Ref)
    (enough : copy.length ≤ turns) :
    Sat (pushAllInOrder objs turns copy queue) (fun out => out.Perm (copy ++ queue)) QueueErr := by
  -- Each turn moves one request from the copy to the queue.
  induction turns generalizing copy queue with
  | zero =>
    have empty : copy = [] := List.length_eq_zero_iff.mp (by omega)
    subst empty
    exact Sat.ok (.refl _)
  | succ turns ih =>
    cases copy with
    | nil => exact Sat.ok (.refl _)
    | cons first rest =>
      refine Sat.bind (heappop_sat (heapEntryLt_sat objs) first rest) ?_
      rintro ⟨r, left⟩ ⟨rfl, kept⟩
      refine Sat.bind (heappush_sat (heapEntryLt_sat objs) queue r) fun longer pushed => ?_
      have short : left.length ≤ turns := by
        have same : left.length = rest.length := kept.length_eq
        simp only [List.length_cons] at enough
        omega
      refine (ih longer short).mono (fun out moved => ?_) fun _ h => h
      have added : (left ++ longer).Perm (rest ++ (r :: queue)) := kept.append pushed
      exact moved.trans (added.trans List.perm_middle)

variable {objs policy} in
/-- A queue that is no heap takes requests in front of it in their order. -/
theorem queuePrependAll_fifo (fifo : policy ≠ .priority) (queue requests : List Ref) :
    queuePrependAll objs policy queue requests = .ok (requests ++ queue) := by
  cases policy with
  | priority => exact absurd rfl fifo
  | fcfs => rfl
  | mimir => rfl

/-- Putting requests back in front keeps the requests of both queues. -/
theorem queuePrependAll_sat (queue requests : List Ref) :
    Sat (queuePrependAll objs policy queue requests) (fun out => out.Perm (requests ++ queue))
      QueueErr := by
  unfold queuePrependAll
  split
  · exact pushAllInOrder_sat objs queue (Nat.le_refl _)
  · exact Sat.ok (.refl _)

/-- Removing requests keeps the others. -/
theorem queueRemoveAll_sat (queue requests : List Ref) :
    Sat (queueRemoveAll objs policy queue requests)
      (fun out => out.Perm (queue.filter fun r => !decide (r ∈ requests))) QueueErr := by
  unfold queueRemoveAll
  split
  · exact heapify_sat (heapEntryLt_sat objs) _
  · exact Sat.ok (.refl _)

end

/-- On a list without duplicates the two ways of removing items agree. -/
theorem removeAll_eq_filter {list : List Ref} (nodup : list.Nodup) (items : List Ref) :
    removeAll list items = list.filter fun r => !decide (r ∈ items) := by
  unfold removeAll
  split
  · simp
  · rename_i item
    rw [nodup.erase_eq_filter]
    apply List.filter_congr
    intro r _
    simp [bne, beq_eq_decide]
  · rfl

end Mimir
