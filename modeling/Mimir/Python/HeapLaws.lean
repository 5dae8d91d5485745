import Mimir.Python.Heapq

/-! The heap order of `heapq`: no operation raises on comparable items, and the root is a least one. -/

namespace Mimir.Python

open List

section Exchange

variable {α : Type}

/-- Exchanging two positions that exist keeps the length. -/
@[simp] theorem length_swapAt (xs : List α) (i j : Nat) : (swapAt xs i j).length = xs.length :=
  (swapAt_perm xs i j).length_eq

/-- What stands at a position after an exchange. -/
theorem getElem?_swapAt {xs : List α} {i j : Nat} (first : i < xs.length) (second : j < xs.length)
    (k : Nat) :
    (swapAt xs i j)[k]? = if k = j then xs[i]? else if k = i then xs[j]? else xs[k]? := by
  -- Both positions exist, so the exchange is the one of arrays.
  unfold swapAt
  rw [Array.swapIfInBounds_def, dif_pos (by simpa using first), dif_pos (by simpa using second)]
  rw [Array.getElem?_toList, Array.getElem?_swap]
  simp only [getElem_toArray, eq_comm]
  split
  · rw [getElem?_eq_getElem first]
  · split
    · rw [getElem?_eq_getElem second]
    · simp

end Exchange

/-- A comparison that never raises on the items of a domain, and orders them weakly. -/
structure Orders {ε α : Type} (lt : α → α → Except ε Bool) (domain : α → Prop)
    (before : α → α → Prop) : Prop where
  compares : ∀ a b, domain a → domain b → ∃ answer, lt a b = .ok answer ∧ (answer = true ↔ before a b)
  asymm : ∀ a b, domain a → domain b → before a b → ¬ before b a
  /-- What is not before something that is not before a third is not before the third. -/
  negTrans : ∀ a b c, domain a → domain b → domain c → ¬ before a b → ¬ before b c → ¬ before a c

namespace Orders

variable {ε α : Type} {lt : α → α → Except ε Bool} {domain : α → Prop} {before : α → α → Prop}

/-- Nothing is before itself. -/
theorem irrefl (orders : Orders lt domain before) {a : α} (known : domain a) : ¬ before a a :=
  fun less => orders.asymm a a known known less less

/-- What is before something that is not behind a third is before the third. -/
theorem trans_left (orders : Orders lt domain before) {a b c : α} (first : domain a)
    (second : domain b) (third : domain c) (less : before a b) (most : ¬ before c b) :
    ¬ before c a := by
  -- Otherwise `c` would be before `a`, which is before `b`.
  intro less'
  exact orders.negTrans a c b first third second (orders.asymm c a third first less') most less

end Orders

section Heaps

variable {α : Type} (before : α → α → Prop)

/-- The edge of a heap above one position: the item there is not before its parent. -/
def HeapEdge (heap : List α) (i : Nat) : Prop :=
  ∀ child parent, heap[i]? = some child → heap[(i - 1) / 2]? = some parent → ¬ before child parent

/-- A list is a heap from a position on when all edges below that position hold. -/
def HeapFrom (start : Nat) (heap : List α) : Prop :=
  ∀ i, 0 < i → start ≤ (i - 1) / 2 → HeapEdge before heap i

/-- A heap in which only the edge above one position may fail. -/
structure Rising (start pos : Nat) (heap : List α) : Prop where
  edges : ∀ i, 0 < i → start ≤ (i - 1) / 2 → i ≠ pos → HeapEdge before heap i
  /-- The children of the position are in order with its parent. -/
  across : ∀ i, 0 < i → (i - 1) / 2 = pos → start < pos →
    ∀ child parent, heap[i]? = some child → heap[(pos - 1) / 2]? = some parent →
      ¬ before child parent

/-- A heap in which only the edges at one position may fail. -/
structure Sinking (start pos : Nat) (heap : List α) : Prop where
  edges : ∀ i, 0 < i → start ≤ (i - 1) / 2 → i ≠ pos → (i - 1) / 2 ≠ pos → HeapEdge before heap i
  across : ∀ i, 0 < i → (i - 1) / 2 = pos → start < pos →
    ∀ child parent, heap[i]? = some child → heap[(pos - 1) / 2]? = some parent →
      ¬ before child parent

/-- The positions of the subtree below a position. -/
inductive Below (start : Nat) : Nat → Prop
  | root : Below start start
  | left {pos : Nat} (below : Below start pos) : Below start (2 * pos + 1)
  | right {pos : Nat} (below : Below start pos) : Below start (2 * pos + 2)

variable {start pos turns : Nat} {heap : List α} {first item : α}

/-- A subtree lies behind its root. -/
theorem Below.le (below : Below start pos) : start ≤ pos := by
  induction below with
  | root => exact Nat.le_refl _
  | left => omega
  | right => omega

/-- Above a position of a subtree other than its root is another one. -/
theorem Below.parent (below : Below start pos) (inner : start < pos) :
    Below start ((pos - 1) / 2) := by
  cases below with
  | root => omega
  | @left pos below =>
    have up : (2 * pos + 1 - 1) / 2 = pos := by omega
    rw [up]
    exact below
  | @right pos below =>
    have up : (2 * pos + 2 - 1) / 2 = pos := by omega
    rw [up]
    exact below

/-- Every position lies below the first one. -/
theorem Below.zero (pos : Nat) : Below 0 pos := by
  induction pos using Nat.strongRecOn with
  | ind pos ih =>
    by_cases top : pos = 0
    · subst top
      exact .root
    · have up := ih ((pos - 1) / 2) (by omega)
      have child : pos = 2 * ((pos - 1) / 2) + 1 ∨ pos = 2 * ((pos - 1) / 2) + 2 := by omega
      rcases child with left | right
      · rw [left]
        exact up.left
      · rw [right]
        exact up.right

variable {before}

/-- A position without children can only fail above itself. -/
theorem Sinking.leaf (sinking : Sinking before start pos heap)
    (leaf : heap.length ≤ 2 * pos + 1) : Rising before start pos heap where
  edges i positive below other := by
    by_cases under : (i - 1) / 2 = pos
    · -- A child of the position would lie outside the list.
      intro child parent found _
      rw [getElem?_eq_none (by omega)] at found
      cases found
    · exact sinking.edges i positive below other under
  across := sinking.across

/-- With the edge above the position in order too, the whole heap is. -/
theorem Rising.done (rising : Rising before start pos heap)
    (last : start < pos → HeapEdge before heap pos) : HeapFrom before start heap := by
  intro i positive below
  by_cases here : i = pos
  · subst here
    exact last (by omega)
  · exact rising.edges i positive below here

variable {ε : Type} {lt : α → α → Except ε Bool} {domain : α → Prop}

variable (orders : Orders lt domain before)

include orders

/-- The root of a heap is not behind any item of its subtree. -/
theorem HeapFrom.root_least
    (heaped : HeapFrom before 0 heap) (known : ∀ x ∈ heap, domain x) (root : heap[0]? = some first)
    {x : α} (member : x ∈ heap) : ¬ before x first := by
  obtain ⟨i, found⟩ := mem_iff_getElem?.mp member
  -- The induction climbs from a position to its parent.
  induction i using Nat.strongRecOn generalizing x with
  | ind i ih =>
    have rootKnown := known first (mem_of_getElem? root)
    by_cases top : i = 0
    · subst top
      rw [root] at found
      cases found
      exact orders.irrefl rootKnown
    · obtain ⟨below, -⟩ := List.getElem?_eq_some_iff.mp found
      have inside : (i - 1) / 2 < heap.length := by omega
      have parentFound := getElem?_eq_getElem inside
      have parentMember := mem_of_getElem? parentFound
      have up := ih ((i - 1) / 2) (by omega) parentMember parentFound
      have edge := heaped i (by omega) (Nat.zero_le _) x _ found parentFound
      exact orders.negTrans x _ first (known x member) (known _ parentMember) rootKnown edge up

/-- One exchange with the parent moves the position that may fail up to it. -/
theorem Rising.exchange {parent : α} (rising : Rising before start pos heap) (below : Below start pos)
    (inner : start < pos) (known : ∀ x ∈ heap, domain x) (here : heap[pos]? = some item)
    (above : heap[(pos - 1) / 2]? = some parent) (less : before item parent) :
    Rising before start ((pos - 1) / 2) (swapAt heap pos ((pos - 1) / 2)) := by
  have inside : pos < heap.length := (List.getElem?_eq_some_iff.mp here).1
  have up : (pos - 1) / 2 < pos := by omega
  have grown : start ≤ (pos - 1) / 2 := (below.parent inner).le
  have itemKnown := known item (mem_of_getElem? here)
  have parentKnown := known parent (mem_of_getElem? above)
  have fits : (pos - 1) / 2 < heap.length := by omega
  have moved := getElem?_swapAt inside fits
  refine ⟨fun i positive under other child upper found found' => ?_,
    fun i positive under inner' child upper found found' => ?_⟩
  · rw [moved] at found found'
    by_cases self : i = pos
    · -- The old parent now stands below the item that was before it.
      subst self
      rw [if_neg (by omega), if_pos rfl, above] at found
      rw [if_pos rfl, here] at found'
      cases found
      cases found'
      exact orders.asymm item parent itemKnown parentKnown less
    · rw [if_neg other, if_neg self] at found
      have edge := rising.edges i positive under self
      by_cases sibling : (i - 1) / 2 = (pos - 1) / 2
      · -- The other child was in order with the old parent, so it is with the item.
        rw [sibling, if_pos rfl, here] at found'
        cases found'
        have order := edge child parent found (by rw [sibling]; exact above)
        exact orders.trans_left itemKnown parentKnown (known child (mem_of_getElem? found))
          less order
      · by_cases under' : (i - 1) / 2 = pos
        · -- A child of the position was in order with the old parent.
          rw [under', if_neg (by omega), if_pos rfl, above] at found'
          cases found'
          exact rising.across i positive under' inner child parent found above
        · rw [if_neg sibling, if_neg under'] at found'
          exact edge child upper found found'
  · -- The children of the new position are the old parent and the old sibling.
    rw [moved] at found found'
    rw [if_neg (by omega), if_neg (by omega)] at found'
    have grand : start ≤ ((pos - 1) / 2 - 1) / 2 := ((below.parent inner).parent inner').le
    have upperKnown := known upper (mem_of_getElem? found')
    have order := rising.edges ((pos - 1) / 2) (by omega) grand (by omega) parent upper above found'
    by_cases self : i = pos
    · subst self
      rw [if_neg (by omega), if_pos rfl, above] at found
      cases found
      exact order
    · rw [if_neg (by omega), if_neg self] at found
      have sibling := rising.edges i positive (by omega) self child parent found
        (by rw [under]; exact above)
      exact orders.negTrans child parent upper (known child (mem_of_getElem? found))
        parentKnown upperKnown sibling order

/-- Moving an item towards the root restores the heap. -/
theorem siftdown_heap
    (rising : Rising before start pos heap) (below : Below start pos) (inside : pos < heap.length)
    (enough : pos < turns) (known : ∀ x ∈ heap, domain x) :
    ∃ out, siftdown lt start turns heap pos = .ok out ∧ out.Perm heap ∧ HeapFrom before start out := by
  -- The induction follows the turns, each of which climbs to the parent.
  induction turns generalizing pos heap with
  | zero => omega
  | succ turns ih =>
    unfold siftdown
    by_cases inner : start < pos
    · have here := getElem?_eq_getElem inside
      have above := getElem?_eq_getElem (l := heap) (i := (pos - 1) / 2) (by omega)
      rw [if_pos inner, here, above]
      dsimp only
      obtain ⟨answer, asked, meaning⟩ := orders.compares _ _ (known _ (mem_of_getElem? here))
        (known _ (mem_of_getElem? above))
      rw [asked]
      cases answer with
      | true =>
        have next := rising.exchange orders below inner known here above (meaning.mp rfl)
        have moved := swapAt_perm heap pos ((pos - 1) / 2)
        obtain ⟨out, done, perm, heaped⟩ := ih next (below.parent inner)
          (by rw [length_swapAt]; omega) (by omega) fun x member => known x (moved.mem_iff.mp member)
        exact ⟨out, done, perm.trans moved, heaped⟩
      | false =>
        refine ⟨heap, rfl, .refl _, rising.done fun _ child parent found found' => ?_⟩
        rw [here] at found
        rw [above] at found'
        cases found
        cases found'
        exact fun less => by simpa using meaning.mpr less
    · rw [if_neg inner]
      exact ⟨heap, rfl, .refl _, rising.done fun inner' => absurd inner' inner⟩

/-- The smaller child is one of the children, and the other is not before it. -/
theorem smallerChild_ok (inside : 2 * pos + 1 < heap.length) (known : ∀ x ∈ heap, domain x) :
    ∃ child, smallerChild lt heap pos = .ok child ∧ child < heap.length ∧
      (child = 2 * pos + 1 ∨ child = 2 * pos + 2) ∧
      ∀ i, 0 < i → (i - 1) / 2 = pos → ∀ x y, heap[i]? = some x → heap[child]? = some y →
        ¬ before x y := by
  have left := getElem?_eq_getElem inside
  have leftKnown := known _ (mem_of_getElem? left)
  unfold smallerChild
  cases right : heap[2 * pos + 2]? with
  | none =>
    rw [left]
    refine ⟨2 * pos + 1, rfl, inside, .inl rfl, fun i positive under x y found found' => ?_⟩
    have only : i = 2 * pos + 1 ∨ i = 2 * pos + 2 := by omega
    rcases only with rfl | rfl
    · rw [found] at found'
      cases found'
      exact orders.irrefl (known x (mem_of_getElem? found))
    · rw [right] at found
      cases found
  | some other =>
    rw [left]
    dsimp only
    have otherKnown := known other (mem_of_getElem? right)
    have fits := (List.getElem?_eq_some_iff.mp right).1
    obtain ⟨answer, asked, meaning⟩ := orders.compares _ other leftKnown otherKnown
    rw [asked]
    cases answer with
    | true =>
      refine ⟨2 * pos + 1, rfl, inside, .inl rfl, fun i positive under x y found found' => ?_⟩
      rw [left] at found'
      cases found'
      have only : i = 2 * pos + 1 ∨ i = 2 * pos + 2 := by omega
      rcases only with rfl | rfl
      · rw [left] at found
        cases found
        exact orders.irrefl leftKnown
      · rw [right] at found
        cases found
        exact orders.asymm _ _ leftKnown otherKnown (meaning.mp rfl)
    | false =>
      refine ⟨2 * pos + 2, rfl, fits, .inr rfl, fun i positive under x y found found' => ?_⟩
      rw [right] at found'
      cases found'
      have only : i = 2 * pos + 1 ∨ i = 2 * pos + 2 := by omega
      rcases only with rfl | rfl
      · rw [left] at found
        cases found
        exact fun less => by simpa using meaning.mpr less
      · rw [right] at found
        cases found
        exact orders.irrefl otherKnown

omit orders in
/-- One exchange with the smaller child moves the position that may fail down to it. -/
theorem Sinking.exchange {child : Nat}
    (sinking : Sinking before start pos heap) (below : Below start pos) (inside : pos < heap.length)
    (fits : child < heap.length) (either : child = 2 * pos + 1 ∨ child = 2 * pos + 2)
    (least : ∀ i, 0 < i → (i - 1) / 2 = pos → ∀ x y, heap[i]? = some x → heap[child]? = some y →
      ¬ before x y) : Sinking before start child (swapAt heap pos child) := by
  have under : (child - 1) / 2 = pos := by omega
  have down : pos < child := by omega
  have behind := below.le
  have moved := getElem?_swapAt inside fits
  refine ⟨fun i positive inner other other' x y found found' => ?_,
    fun i positive inner inner' x y found found' => ?_⟩
  · rw [moved] at found found'
    rw [if_neg other] at found
    rw [if_neg other'] at found'
    by_cases self : i = pos
    · -- The child that moved up was in order with the parent of the position.
      subst self
      rw [if_pos rfl] at found
      rw [if_neg (by omega)] at found'
      exact sinking.across child (by omega) under (by omega) x y found found'
    · rw [if_neg self] at found
      by_cases sibling : (i - 1) / 2 = pos
      · -- The other child is not before the smaller one.
        rw [if_pos sibling] at found'
        exact least i positive sibling x y found found'
      · rw [if_neg sibling] at found'
        exact sinking.edges i positive inner self sibling x y found found'
  · -- The children of the new position stood below the child that moved up.
    rw [under] at found'
    rw [moved] at found found'
    rw [if_neg (by omega), if_neg (by omega)] at found
    rw [if_neg (by omega), if_pos rfl] at found'
    exact sinking.edges i positive (by omega) (by omega) (by omega) x y found (by rw [inner]; exact found')

/-- Moving an item down to a leaf and back up restores the heap. -/
theorem siftup_heap
    (sinking : Sinking before start pos heap) (below : Below start pos) (inside : pos < heap.length)
    (enough : heap.length < pos + turns) (known : ∀ x ∈ heap, domain x) :
    ∃ out, siftup lt start turns heap pos = .ok out ∧ out.Perm heap ∧ HeapFrom before start out := by
  -- The induction follows the turns, each of which goes down to a child.
  induction turns generalizing pos heap with
  | zero => omega
  | succ turns ih =>
    unfold siftup
    by_cases inner : 2 * pos + 1 < heap.length
    · rw [if_pos inner]
      obtain ⟨child, chosen, fits, either, least⟩ := smallerChild_ok orders inner known
      rw [chosen]
      have next := sinking.exchange below inside fits either least
      have lower : Below start child := by
        rcases either with rfl | rfl
        · exact below.left
        · exact below.right
      have moved := swapAt_perm heap pos child
      obtain ⟨out, done, perm, heaped⟩ := ih next lower (by rw [length_swapAt]; exact fits)
        (by rw [length_swapAt]; omega) fun x member => known x (moved.mem_iff.mp member)
      exact ⟨out, done, perm.trans moved, heaped⟩
    · rw [if_neg inner]
      exact siftdown_heap orders (sinking.leaf (by omega)) below inside (Nat.lt_succ_self pos) known

/-- A push on comparable items never raises, adds its item and keeps the heap. -/
theorem heappush_heap (heaped : HeapFrom before 0 heap) (known : ∀ x ∈ item :: heap, domain x) :
    ∃ out, heappush lt heap item = .ok out ∧ out.Perm (item :: heap) ∧ HeapFrom before 0 out := by
  have added := perm_append_singleton item heap
  -- Only the edge above the new item may fail.
  have rising : Rising before 0 heap.length (heap ++ [item]) := by
    refine ⟨fun i positive under other child parent found found' => ?_,
      fun i positive under _ child parent found _ => ?_⟩
    · have below : i < heap.length + 1 := by
        have inside := (List.getElem?_eq_some_iff.mp found).1
        simpa using inside
      rw [getElem?_append_left (by omega)] at found
      rw [getElem?_append_left (by omega)] at found'
      exact heaped i positive under child parent found found'
    · have inside := (List.getElem?_eq_some_iff.mp found).1
      rw [length_append, length_singleton] at inside
      omega
  obtain ⟨out, done, perm, heap'⟩ := siftdown_heap orders rising (Below.zero _) (by simp)
    (Nat.lt_succ_self _) fun x member => known x (added.mem_iff.mp member)
  exact ⟨out, done, perm.trans added, heap'⟩

/-- A pop of comparable items never raises, returns the root and keeps the heap of the others. -/
theorem heappop_heap {rest : List α}
    (heaped : HeapFrom before 0 (first :: rest)) (known : ∀ x ∈ first :: rest, domain x) :
    ∃ out, heappop lt first rest = .ok (first, out) ∧ out.Perm rest ∧ HeapFrom before 0 out := by
  unfold heappop
  cases tail : rest.getLast? with
  | none =>
    rw [getLast?_eq_none_iff.mp tail]
    exact ⟨[], rfl, .refl _, fun i _ _ child _ found => by simp at found⟩
  | some last =>
    have whole : rest.dropLast ++ [last] = rest := dropLast_append_getLast? last tail
    have length : rest.length = rest.dropLast.length + 1 := by
      rw [← whole]
      simp
    have moved : (last :: rest.dropLast).Perm rest := by
      have turned := (perm_append_singleton last rest.dropLast).symm
      rwa [whole] at turned
    -- Behind the root nothing moved.
    have kept : ∀ i x, 0 < i → (last :: rest.dropLast)[i]? = some x →
        (first :: rest)[i]? = some x := by
      intro i x positive found
      obtain ⟨j, rfl⟩ := Nat.exists_eq_succ_of_ne_zero (Nat.pos_iff_ne_zero.mp positive)
      rw [getElem?_cons_succ] at found ⊢
      rw [← whole, getElem?_append_left (List.getElem?_eq_some_iff.mp found).1]
      exact found
    have sinking : Sinking before 0 0 (last :: rest.dropLast) := by
      refine ⟨fun i positive under _ other child parent found found' => ?_,
        fun i _ _ inner => absurd inner (Nat.lt_irrefl 0)⟩
      exact heaped i positive under child parent (kept i child positive found)
        (kept _ parent (by omega) found')
    have enough : (last :: rest.dropLast).length < 0 + (rest.length + 1) := by
      simp only [length_cons]
      omega
    obtain ⟨out, done, perm, heap'⟩ := siftup_heap orders sinking .root (by simp) enough
      fun x member => known x (mem_cons_of_mem _ (moved.mem_iff.mp member))
    dsimp only
    rw [done]
    exact ⟨out, rfl, perm.trans moved, heap'⟩

/-- Sifting position by position makes a heap. -/
theorem heapifyFrom_heap
    (heaped : HeapFrom before pos heap) (inside : pos ≤ heap.length) (known : ∀ x ∈ heap, domain x) :
    ∃ out, heapifyFrom lt pos heap = .ok out ∧ out.Perm heap ∧ HeapFrom before 0 out := by
  induction pos generalizing heap with
  | zero => exact ⟨heap, rfl, .refl _, heaped⟩
  | succ pos ih =>
    unfold heapifyFrom
    -- All subtrees behind the position are heaps already.
    have sinking : Sinking before pos pos heap :=
      ⟨fun i positive under _ other => heaped i positive (by omega),
        fun i _ _ inner => absurd inner (Nat.lt_irrefl pos)⟩
    have enough : heap.length < pos + (heap.length + 1) := by omega
    obtain ⟨mid, sifted, perm, heap'⟩ := siftup_heap orders sinking .root (by omega) enough known
    rw [sifted]
    obtain ⟨out, done, perm', final⟩ := ih heap' (by rw [perm.length_eq]; omega)
      fun x member => known x (perm.mem_iff.mp member)
    exact ⟨out, done, perm'.trans perm, final⟩

/-- Rebuilding a heap of comparable items never raises. -/
theorem heapify_heap (known : ∀ x ∈ heap, domain x) :
    ∃ out, heapify lt heap = .ok out ∧ out.Perm heap ∧ HeapFrom before 0 out := by
  refine heapifyFrom_heap orders (fun i positive under child parent found _ => ?_)
    (Nat.div_le_self _ _) known
  -- Behind the middle there are no children.
  have inside := (List.getElem?_eq_some_iff.mp found).1
  omega

end Heaps

end Mimir.Python
