import Mathlib.Data.Multiset.Filter
import Mathlib.Data.Multiset.AddSub
import Mimir.Python.HeapLaws
import Mimir.Sched.Queue

/-! The laws of the priority queue, over any sequence of operations on any number of queues. -/

namespace Mimir

open Python List Function

variable {H : Type} {first : Ref} {turns : Nat}

section Operations

variable (objs : Ref → Request H)

/-- `remove_request`: a heap drops every entry of the request, a deque its first one. -/
def queueRemove (policy : SchedulingPolicy) (queue : List Ref) (r : Ref) : Except Err (List Ref) :=
  match policy with
  | .priority => heapify (heapEntryLt objs) (queue.filter fun x => !decide (x = r))
  | _ => do
    require (r ∈ queue) ⟨.value, .queueRemove⟩
    .ok (queue.erase r)

/-- Popping a copy of a heap until it is empty. -/
def popAll : Nat → List Ref → Except Err (List Ref)
  | 0, _ => .ok []
  | _ + 1, [] => .ok []
  | turns + 1, first :: rest => do
    let (r, copy) ← heappop (heapEntryLt objs) first rest
    let later ← popAll turns copy
    .ok (r :: later)

/-- `__iter__`: a heap yields its requests by popping a copy of it. -/
def queueIter (policy : SchedulingPolicy) (queue : List Ref) : Except Err (List Ref) :=
  match policy with
  | .priority => popAll objs queue.length queue
  | _ => .ok queue

/-- An operation on one of several priority queues. -/
inductive QueueOp where
  | addRequest (r : Ref)
  | prependRequest (r : Ref)
  /-- The argument is another queue, or the queue itself. -/
  | prependRequests (other : Nat)
  | removeRequest (r : Ref)
  | removeRequests (requests : List Ref)
  | popRequest

/-- One operation on the queue with a number: what it returns, and the queue after it. -/
def QueueOp.exec (queues : Nat → List Ref) (k : Nat) : QueueOp → Except Err (Option Ref × List Ref)
  | .addRequest r => do
    let queue ← queueAdd objs .priority (queues k) r
    .ok (none, queue)
  | .prependRequest r => do
    let queue ← queuePrepend objs .priority (queues k) r
    .ok (none, queue)
  | .prependRequests other => do
    let queue ← queuePrependAll objs .priority (queues k) (queues other)
    .ok (none, queue)
  | .removeRequest r => do
    let queue ← queueRemove objs .priority (queues k) r
    .ok (none, queue)
  | .removeRequests requests => do
    let queue ← queueRemoveAll objs .priority (queues k) requests
    .ok (none, queue)
  | .popRequest => do
    let (r, queue) ← queuePop objs .priority (queues k)
    .ok (some r, queue)

/-- An operation that was executed, on which queue and with which result. -/
structure QueueEvent where
  queue : Nat
  op : QueueOp
  result : Option Ref

/-- What an operation makes of the contents of its queue. -/
def QueueOp.applied (contents : Nat → Multiset Ref) (k : Nat) (result : Option Ref) :
    QueueOp → Multiset Ref
  | .addRequest r => r ::ₘ contents k
  | .prependRequest r => r ::ₘ contents k
  | .prependRequests other => contents other + contents k
  | .removeRequest r => (contents k).filter fun x => x ≠ r
  | .removeRequests requests => (contents k).filter fun x => x ∉ requests
  | .popRequest =>
    match result with
    | some r => (contents k).erase r
    | none => contents k

/-- The requests added to each queue and not yet popped or removed; the newest event comes first. -/
def queueContents : List QueueEvent → Nat → Multiset Ref
  | [] => fun _ => 0
  | event :: earlier =>
    Function.update (queueContents earlier) event.queue
      (event.op.applied (queueContents earlier) event.queue event.result)

end Operations

section Order

variable (objs : Ref → Request H)

/-- One request comes before another: lower priority value, or the same and earlier arrival. -/
def KeyBefore (a b : Ref) : Prop :=
  (objs a).priority < (objs b).priority ∨
    (objs a).priority = (objs b).priority ∧ (objs a).arrivalTime.lt (objs b).arrivalTime = true

/-- Two requests with the same priority and the same arrival time. -/
def Tied (a b : Ref) : Prop :=
  (objs a).priority = (objs b).priority ∧ (objs a).arrivalTime = (objs b).arrivalTime

/-- Requests that can be put in order: real arrival times, and no ties between different requests. -/
structure Comparable (requests : List Ref) : Prop where
  times : ∀ r ∈ requests, (objs r).arrivalTime ≠ .nan
  untied : ∀ a ∈ requests, ∀ b ∈ requests, a ≠ b → ¬ Tied objs a b

variable {objs}

variable {requests queue : List Ref}

/-- Whether requests can be put in order depends only on which requests they are. -/
theorem Comparable.subset {fewer : List Ref} (comparable : Comparable objs requests)
    (sub : ∀ r ∈ fewer, r ∈ requests) : Comparable objs fewer where
  times r member := comparable.times r (sub r member)
  untied a first b second := comparable.untied a (sub a first) b (sub b second)

/-- Comparable requests are compared by their keys, and no comparison raises. -/
theorem Comparable.orders (comparable : Comparable objs requests) :
    Orders (heapEntryLt objs) (· ∈ requests) (KeyBefore objs) where
  compares a b first second := by
    unfold heapEntryLt KeyBefore
    by_cases priority : (objs a).priority = (objs b).priority
    · rw [if_neg (by simpa using priority)]
      by_cases time : (objs a).arrivalTime = (objs b).arrivalTime
      · -- Only a request itself has both fields in common with it.
        have equal := (PyFloat.eq_iff (comparable.times a first)).mpr time
        have same : a = b := by
          by_contra other
          exact comparable.untied a first b second other ⟨priority, time⟩
        rw [if_neg (by simpa using equal), if_pos same]
        refine ⟨false, rfl, ?_⟩
        subst same
        cases less : (objs a).arrivalTime.lt (objs a).arrivalTime with
        | false => simp
        | true => simpa [less] using PyFloat.lt_asymm less
      · have unequal : (objs a).arrivalTime.eq (objs b).arrivalTime = false := by
          rw [Bool.eq_false_iff]
          exact fun equal => time ((PyFloat.eq_iff (comparable.times a first)).mp equal)
        rw [if_pos (by simp [unequal])]
        exact ⟨_, rfl, by simp [priority]⟩
    · rw [if_pos (by simpa using priority)]
      exact ⟨_, rfl, by simp [priority]⟩
  asymm a b _ _ less less' := by
    rcases less with lower | ⟨same, earlier⟩
    · rcases less' with lower' | ⟨same', _⟩ <;> omega
    · rcases less' with lower' | ⟨_, earlier'⟩
      · omega
      · rw [PyFloat.lt_asymm earlier] at earlier'
        cases earlier'
  negTrans a b c _ second _ least least' less := by
    simp only [KeyBefore, not_or, not_and, not_lt, Bool.not_eq_true] at least least'
    rcases less with lower | ⟨same, earlier⟩
    · omega
    · -- All three priorities are the same, so the arrival times decide.
      have first := least.2 (by omega)
      have last := least'.2 (by omega)
      rw [PyFloat.not_lt_trans (comparable.times b second) first last] at earlier
      cases earlier

/-- A heap of requests that can be put in order. -/
structure QueueOrdered (objs : Ref → Request H) (queue : List Ref) : Prop where
  heap : HeapFrom (KeyBefore objs) 0 queue
  comparable : Comparable objs queue

variable (ordered : QueueOrdered objs queue)

include ordered

/-- No request of a heap comes before its first one. -/
theorem QueueOrdered.first_least
    (root : queue.head? = some first) : ∀ x ∈ queue, ¬ KeyBefore objs x first := by
  intro x member
  rw [head?_eq_getElem?] at root
  exact ordered.heap.root_least ordered.comparable.orders (fun _ inside => inside) root member

/-- Pushing a request that can be put in order with the others. -/
theorem QueueOrdered.push {r : Ref} (comparable : Comparable objs (r :: queue)) :
    ∃ out, heappush (heapEntryLt objs) queue r = .ok out ∧ out.Perm (r :: queue) ∧
      QueueOrdered objs out := by
  obtain ⟨out, done, perm, heap⟩ :=
    heappush_heap comparable.orders ordered.heap fun _ inside => inside
  exact ⟨out, done, perm, heap, comparable.subset fun _ member => perm.mem_iff.mp member⟩

omit ordered in
/-- Popping the first request of a heap. -/
theorem QueueOrdered.pop {rest : List Ref} (ordered : QueueOrdered objs (first :: rest)) :
    ∃ out, heappop (heapEntryLt objs) first rest = .ok (first, out) ∧ out.Perm rest ∧
      QueueOrdered objs out := by
  obtain ⟨out, done, perm, heap⟩ :=
    heappop_heap ordered.comparable.orders ordered.heap fun _ inside => inside
  refine ⟨out, done, perm, heap, ordered.comparable.subset fun _ member => ?_⟩
  exact mem_cons_of_mem _ (perm.mem_iff.mp member)

/-- Rebuilding the heap after some requests were dropped. -/
theorem QueueOrdered.filter (keep : Ref → Bool) :
    ∃ out, heapify (heapEntryLt objs) (queue.filter keep) = .ok out ∧
      out.Perm (queue.filter keep) ∧ QueueOrdered objs out := by
  have fewer := ordered.comparable.subset fun r (member : r ∈ queue.filter keep) =>
    mem_of_mem_filter member
  obtain ⟨out, done, perm, heap⟩ := heapify_heap fewer.orders fun _ inside => inside
  exact ⟨out, done, perm, heap, fewer.subset fun _ member => perm.mem_iff.mp member⟩

omit ordered in
/-- Moving all requests of one heap to another. -/
theorem QueueOrdered.pushAll {copy : List Ref} (ordered : QueueOrdered objs copy)
    (target : QueueOrdered objs queue) (comparable : Comparable objs (copy ++ queue))
    (enough : copy.length ≤ turns) :
    ∃ out, pushAllInOrder objs turns copy queue = .ok out ∧ out.Perm (copy ++ queue) ∧
      QueueOrdered objs out := by
  -- Each turn moves the first request of the copy.
  induction turns generalizing copy queue with
  | zero =>
    have empty : copy = [] := length_eq_zero_iff.mp (by omega)
    subst empty
    exact ⟨queue, rfl, .refl _, target⟩
  | succ turns ih =>
    cases copy with
    | nil => exact ⟨queue, rfl, .refl _, target⟩
    | cons first rest =>
      obtain ⟨left, popped, kept, ordered'⟩ := ordered.pop
      have joined : Comparable objs (first :: queue) := comparable.subset (by simp; tauto)
      obtain ⟨longer, pushed, grown, target'⟩ := target.push joined
      have moved : (left ++ longer).Perm (first :: rest ++ queue) :=
        (kept.append grown).trans perm_middle
      have short : left.length ≤ turns := by
        rw [kept.length_eq]
        exact Nat.le_of_succ_le_succ enough
      obtain ⟨out, done, perm, final⟩ := ih ordered' target'
        (comparable.subset fun _ member => moved.mem_iff.mp member) short
      refine ⟨out, ?_, perm.trans moved, final⟩
      simp only [pushAllInOrder, popped, pushed, Bind.bind, Except.bind]
      exact done

/-- Popping a heap until it is empty yields its requests in order. -/
theorem QueueOrdered.popAll (enough : queue.length ≤ turns) :
    ∃ out, popAll objs turns queue = .ok out ∧ out.Perm queue ∧
      out.Pairwise fun a b => ¬ KeyBefore objs b a := by
  induction turns generalizing queue with
  | zero =>
    have empty : queue = [] := length_eq_zero_iff.mp (by omega)
    subst empty
    exact ⟨[], rfl, .refl _, .nil⟩
  | succ turns ih =>
    cases queue with
    | nil => exact ⟨[], rfl, .refl _, .nil⟩
    | cons first rest =>
      obtain ⟨left, popped, kept, ordered'⟩ := ordered.pop
      have short : left.length ≤ turns := by
        rw [kept.length_eq]
        exact Nat.le_of_succ_le_succ enough
      obtain ⟨later, done, perm, sorted⟩ := ih ordered' short
      have whole : (first :: later).Perm (first :: rest) := (perm.trans kept).cons first
      refine ⟨first :: later, ?_, whole, .cons (fun x member => ?_) sorted⟩
      · simp only [Mimir.popAll, popped, done, Bind.bind, Except.bind]
      · -- The root of the heap is not behind anything that is left.
        exact ordered.first_least rfl x (whole.mem_iff.mp (mem_cons_of_mem _ member))

end Order

namespace PriorityQueues

variable (objs : Ref → Request H)

/-- What an operation adds to its queue can be put in order with the requests there. -/
def Orderly (queues : Nat → List Ref) (k : Nat) : QueueOp → Prop
  | .addRequest r => Comparable objs (r :: queues k)
  | .prependRequest r => Comparable objs (r :: queues k)
  | .prependRequests other => Comparable objs (queues other ++ queues k)
  | _ => True

/-- The states of any number of priority queues after some events, the newest of them first. -/
inductive Reachable : List QueueEvent → (Nat → List Ref) → Prop
  | init : Reachable [] fun _ => []
  | step {events : List QueueEvent} {queues : Nat → List Ref} {k : Nat} {op : QueueOp}
      {result : Option Ref} {queue : List Ref} (before : Reachable events queues)
      (orderly : Orderly objs queues k op) (done : op.exec objs queues k = .ok (result, queue)) :
      Reachable (⟨k, op, result⟩ :: events) (Function.update queues k queue)

variable {objs}

/-- The requests of a queue without some of them. -/
theorem coe_filter_decide (queue : List Ref) (drop : Ref → Prop) [DecidablePred drop] :
    ((queue.filter fun x => !decide (drop x) : List Ref) : Multiset Ref) =
      (queue : Multiset Ref).filter fun x => ¬ drop x := by
  rw [Multiset.filter_coe]
  congr 1
  apply filter_congr
  simp

variable {queues : Nat → List Ref}

/-- An orderly operation on heaps returns, keeps the heap, and does to the contents what it should. -/
theorem exec_ordered {k : Nat} {op : QueueOp}
    (ordered : ∀ k, QueueOrdered objs (queues k)) (orderly : Orderly objs queues k op)
    (filled : queues k = [] → op ≠ .popRequest) :
    ∃ result queue, op.exec objs queues k = .ok (result, queue) ∧ QueueOrdered objs queue ∧
      (queue : Multiset Ref) = op.applied (fun k => queues k) k result := by
  cases op with
  | addRequest =>
    obtain ⟨out, done, perm, heap⟩ := (ordered k).push orderly
    exact ⟨none, out, by simp only [QueueOp.exec, queueAdd, done, Bind.bind, Except.bind], heap,
      Multiset.coe_eq_coe.mpr perm⟩
  | prependRequest =>
    obtain ⟨out, done, perm, heap⟩ := (ordered k).push orderly
    exact ⟨none, out, by simp only [QueueOp.exec, queuePrepend, done, Bind.bind, Except.bind], heap,
      Multiset.coe_eq_coe.mpr perm⟩
  | prependRequests other =>
    obtain ⟨out, done, perm, heap⟩ := (ordered other).pushAll (ordered k) orderly (Nat.le_refl _)
    exact ⟨none, out, by simp only [QueueOp.exec, queuePrependAll, done, Bind.bind, Except.bind],
      heap, Multiset.coe_eq_coe.mpr perm⟩
  | removeRequest r =>
    obtain ⟨out, done, perm, heap⟩ := (ordered k).filter fun x => !decide (x = r)
    refine ⟨none, out, by simp only [QueueOp.exec, queueRemove, done, Bind.bind, Except.bind], heap, ?_⟩
    rw [Multiset.coe_eq_coe.mpr perm]
    exact coe_filter_decide (queues k) (· = r)
  | removeRequests requests =>
    obtain ⟨out, done, perm, heap⟩ := (ordered k).filter fun x => !decide (x ∈ requests)
    refine ⟨none, out, by simp only [QueueOp.exec, queueRemoveAll, done, Bind.bind, Except.bind],
      heap, ?_⟩
    rw [Multiset.coe_eq_coe.mpr perm]
    exact coe_filter_decide (queues k) (· ∈ requests)
  | popRequest =>
    cases content : queues k with
    | nil => exact absurd rfl (filled content)
    | cons first =>
      have heap := ordered k
      rw [content] at heap
      obtain ⟨out, done, perm, heap'⟩ := heap.pop
      refine ⟨some first, out, ?_, heap', ?_⟩
      · simp only [QueueOp.exec, content, queuePop, done, Bind.bind, Except.bind]
      · show (out : Multiset Ref) = (queues k : Multiset Ref).erase first
        rw [content, Multiset.coe_erase, erase_cons_head]
        exact Multiset.coe_eq_coe.mpr perm

/-- Every reachable queue is a heap with the contents the events say. -/
theorem Reachable.ordered {events : List QueueEvent} (reached : Reachable objs events queues) :
    (∀ k, QueueOrdered objs (queues k)) ∧ ∀ k, (queues k : Multiset Ref) = queueContents events k := by
  -- The induction is on the events; only the queue of the last one changes.
  induction reached with
  | init =>
    refine ⟨fun k => ⟨fun i _ _ child _ found => by simp at found, ?_⟩, fun k => rfl⟩
    exact ⟨fun r member => by simp at member, fun a member => by simp at member⟩
  | @step events queues k op result queue _ orderly done ih =>
    obtain ⟨ordered, contents⟩ := ih
    have same : (fun k => (queues k : Multiset Ref)) = queueContents events := funext contents
    have filled : queues k = [] → op ≠ .popRequest := by
      rintro empty rfl
      simp [QueueOp.exec, empty, queuePop, Bind.bind, Except.bind] at done
    obtain ⟨result', queue', done', heap, applied⟩ := exec_ordered ordered orderly filled
    rw [done] at done'
    cases done'
    constructor
    · intro j
      by_cases here : j = k
      · subst here
        rwa [update_self]
      · rw [update_of_ne here]
        exact ordered j
    · intro j
      unfold queueContents
      by_cases here : j = k
      · subst here
        rw [update_self, update_self, applied, same]
      · rw [update_of_ne here, update_of_ne here]
        exact contents j

/-- The law of the priority queue: while the requests of each queue can be put in order, no operation
raises but a pop or peek of an empty queue, the contents are what was added and not popped or removed,
pops and peeks return a least request, and iterating yields all of them in order. -/
theorem priorityQueue_law {events : List QueueEvent} {queues : Nat → List Ref}
    (reached : Reachable objs events queues) (k : Nat) :
    (queues k : Multiset Ref) = queueContents events k ∧
    (∀ op, Orderly objs queues k op → (queues k = [] → op ≠ .popRequest) →
      ∃ result queue, op.exec objs queues k = .ok (result, queue)) ∧
    (∀ result queue, QueueOp.popRequest.exec objs queues k = .ok (result, queue) →
      ∃ r, result = some r ∧ r ∈ queues k ∧ ∀ x ∈ queues k, ¬ KeyBefore objs x r) ∧
    (∀ r, queuePeek (queues k) = .ok r → r ∈ queues k ∧ ∀ x ∈ queues k, ¬ KeyBefore objs x r) ∧
    (∀ e, queuePeek (queues k) = .error e → queues k = []) ∧
    ∃ order, queueIter objs .priority (queues k) = .ok order ∧
      (order : Multiset Ref) = queueContents events k ∧
      order.Pairwise fun a b => ¬ KeyBefore objs b a := by
  obtain ⟨ordered, contents⟩ := reached.ordered
  refine ⟨contents k, fun op orderly filled => ?_, fun result queue popped => ?_,
    fun r peeked => ?_, fun e raised => ?_, ?_⟩
  · obtain ⟨result, queue, done, -, -⟩ := exec_ordered ordered orderly filled
    exact ⟨result, queue, done⟩
  · obtain ⟨⟨r, out⟩, done, built⟩ := bind_eq_ok.mp popped
    cases built
    have front := ((queuePop_sat objs .priority (queues k)).post_of_ok done).1
    exact ⟨r, rfl, mem_of_head? front, (ordered k).first_least front⟩
  · -- A peek returns the first entry of the list.
    have front : (queues k).head? = some r := by
      cases content : queues k with
      | nil => rw [content] at peeked; cases peeked
      | cons => rw [content] at peeked; cases peeked; rfl
    exact ⟨mem_of_head? front, (ordered k).first_least front⟩
  · cases content : queues k with
    | nil => rfl
    | cons => rw [content] at raised; cases raised
  · obtain ⟨order, done, perm, sorted⟩ := (ordered k).popAll (Nat.le_refl _)
    exact ⟨order, done, (Multiset.coe_eq_coe.mpr perm).trans (contents k), sorted⟩

/-- Requests of one priority, each arriving at the time its number says. -/
def arrivals (r : Ref) : Request Unit where
  requestId := r
  promptTokenIds := [7]
  samplingParams := some { maxTokens := 1 }
  maxTokens := 1
  arrivalTime := .fin r

/-- Of two requests that arrived one after the other, the earlier one is at the front. -/
theorem priorityQueue_law_twoArrivals :
    ∃ queues, Reachable arrivals [⟨0, .addRequest 3, none⟩, ⟨0, .addRequest 5, none⟩] queues ∧
      queuePeek (queues 0) = .ok 3 ∧
      (queues 0 : Multiset Ref) =
        queueContents [⟨0, .addRequest 3, none⟩, ⟨0, .addRequest 5, none⟩] 0 ∧
      ∀ x ∈ queues 0, ¬ KeyBefore arrivals x 3 := by
  have one : Comparable arrivals [5] :=
    ⟨fun r _ => by simp [arrivals], fun a first b second other => by simp_all⟩
  have two : Comparable arrivals [3, 5] :=
    ⟨fun r _ => by simp [arrivals], fun a _ b _ other tied => other (by simpa [arrivals] using tied.2)⟩
  have reached : Reachable arrivals [⟨0, .addRequest 3, none⟩, ⟨0, .addRequest 5, none⟩]
      (Function.update (Function.update (fun _ => []) 0 [5]) 0 [3, 5]) :=
    .step (.step .init one rfl) two rfl
  have law := priorityQueue_law reached 0
  exact ⟨_, reached, rfl, law.1, (law.2.2.2.1 3 rfl).2⟩

/-- Two samples of one request: the same priority and the same arrival time. -/
def samples (r : Ref) : Request Unit where
  requestId := r
  promptTokenIds := [7]
  samplingParams := some { maxTokens := 1 }
  maxTokens := 1
  arrivalTime := .fin 4

/-- Adding the second sample of a request compares two request objects, which have no order. -/
theorem second_sample_raises :
    QueueOp.exec samples (fun _ => []) 0 (.addRequest 0) = .ok (none, [0]) ∧
      QueueOp.exec samples (fun _ => [0]) 0 (.addRequest 1) =
        .error ⟨.type, .heapComparison⟩ := by
  constructor <;> rfl

end PriorityQueues

end Mimir
