import Mathlib.Data.List.Forall2
import Mimir.Python.Dict

/-! Size-bounded caches that evict the least recently used entry, and caches that mirror each other. -/

namespace Mimir.Theory.Lru

open Python

variable {K V V' : Type} [DecidableEq K]

/-- An access makes its key the most recently used one; entries stand oldest first. -/
def touch (c : PyDict K V) (k : K) : PyDict K V :=
  match c.get? k with
  | none => c
  | some v => (c.erase k).set k v

/-- `cache.get(k)`: the value, and the cache after the access. -/
def get (c : PyDict K V) (k : K) : Option V × PyDict K V := (c.get? k, touch c k)

/-- Oldest entries go until `need` fits beside the rest, or none is left. -/
def evictList (size : V → Nat) (maxsize need : Nat) : List (K × V) → List (K × V)
  | [] => []
  | entry :: rest =>
    if maxsize < ((entry :: rest).map fun e => size e.2).sum + need then
      evictList size maxsize need rest
    else entry :: rest

omit [DecidableEq K] in
/-- Eviction only drops entries. -/
theorem evictList_sublist (size : V → Nat) (maxsize need : Nat) (entries : List (K × V)) :
    (evictList size maxsize need entries).Sublist entries := by
  induction entries with
  | nil => exact List.Sublist.refl _
  | cons entry rest ih =>
    simp only [evictList]
    split
    · exact ih.cons entry
    · exact List.Sublist.refl _

/-- The loop of `popitem` calls in front of an insertion. -/
def evict (size : V → Nat) (maxsize need : Nat) (c : PyDict K V) : PyDict K V :=
  ⟨evictList size maxsize need c.items,
    c.nodup.sublist ((evictList_sublist size maxsize need c.items).map Prod.fst)⟩

/-- `cache[k] = v`; a value larger than the cache is refused. -/
def put (size : V → Nat) (maxsize : Nat) (c : PyDict K V) (k : K) (v : V) : Option (PyDict K V) :=
  if maxsize < size v then none
  else
    -- Room is made for a new key, and for an old key whose value grows.
    let grows := (c.get? k).elim true fun old => size old < size v
    let roomy := if grows then evict size maxsize (size v) c else c
    some (touch (roomy.set k v) k)

/-! ### Mirrored caches -/

/-- Two caches hold the same keys in the same order, with values related key by key. -/
def Mirror (R : K → V → V' → Prop) (c : PyDict K V) (c' : PyDict K V') : Prop :=
  List.Forall₂ (fun a b => a.1 = b.1 ∧ R a.1 a.2 b.2) c.items c'.items

variable {R : K → V → V' → Prop} {c : PyDict K V} {c' : PyDict K V'}

omit [DecidableEq K] in
/-- Empty caches mirror each other. -/
theorem Mirror.empty : Mirror R (PyDict.empty : PyDict K V) (PyDict.empty : PyDict K V') :=
  List.Forall₂.nil

section

variable (mirror : Mirror R c c')

include mirror

/-- A key is in both caches or in neither, and its values are related. -/
theorem Mirror.lookup (k : K) :
    (c.get? k = none ∧ c'.get? k = none) ∨
      ∃ v v', c.get? k = some v ∧ c'.get? k = some v' ∧ R k v v' := by
  -- Both lookups walk their lists in step.
  unfold Mirror at mirror
  unfold PyDict.get?
  generalize c.items = xs at mirror ⊢
  generalize c'.items = ys at mirror ⊢
  induction mirror with
  | nil => exact .inl ⟨rfl, rfl⟩
  | @cons a b xs ys related _ ih =>
    obtain ⟨ka, va⟩ := a
    obtain ⟨kb, vb⟩ := b
    obtain ⟨same, holds⟩ := related
    simp only at same holds
    subst same
    rw [PyDict.lookup_cons_ite, PyDict.lookup_cons_ite]
    by_cases here : k = ka
    · subst here
      exact .inr ⟨va, vb, by simp, by simp, holds⟩
    · simpa [here] using ih

/-- Dropping a key from both caches keeps them in step. -/
theorem Mirror.erase (k : K) : Mirror R (c.erase k) (c'.erase k) := by
  unfold Mirror at mirror ⊢
  simp only [PyDict.erase]
  generalize c.items = xs at mirror ⊢
  generalize c'.items = ys at mirror ⊢
  induction mirror with
  | nil => exact List.Forall₂.nil
  | @cons a b xs ys related _ ih =>
    rw [List.filter_cons, List.filter_cons, ← related.1]
    by_cases here : a.1 = k
    · simpa [here] using ih
    · simp only [here, decide_false, Bool.not_false, if_true]
      exact List.Forall₂.cons related ih

/-- Mirrored caches have the same keys. -/
theorem Mirror.mem_keys (k : K) : k ∈ c.keys ↔ k ∈ c'.keys := by
  rw [PyDict.mem_keys_iff, PyDict.mem_keys_iff]
  rcases mirror.lookup k with ⟨here, there⟩ | ⟨v, v', here, there, -⟩ <;> simp [here, there]

omit mirror in
/-- Overwriting one key in step. -/
theorem forall₂_replace {k : K} {v : V} {v' : V'} (related : R k v v') {xs : List (K × V)}
    {ys : List (K × V')} (mirror : List.Forall₂ (fun a b => a.1 = b.1 ∧ R a.1 a.2 b.2) xs ys) :
    List.Forall₂ (fun a b => a.1 = b.1 ∧ R a.1 a.2 b.2)
      (PyDict.replace k v xs) (PyDict.replace k v' ys) := by
  induction mirror with
  | nil => exact List.Forall₂.nil
  | @cons a b xs ys first rest ih =>
    obtain ⟨ka, va⟩ := a
    obtain ⟨kb, vb⟩ := b
    obtain ⟨same, holds⟩ := first
    simp only at same holds
    subst same
    simp only [PyDict.replace]
    split
    · exact List.Forall₂.cons ⟨rfl, related⟩ rest
    · exact List.Forall₂.cons ⟨rfl, holds⟩ ih

/-- Storing related values under one key keeps the caches in step. -/
theorem Mirror.set {k : K} {v : V} {v' : V'} (related : R k v v') :
    Mirror R (c.set k v) (c'.set k v') := by
  have known := mirror.mem_keys k
  unfold PyDict.keys at known
  unfold Mirror PyDict.set
  by_cases here : k ∈ c.items.map Prod.fst
  · rw [dif_pos here, dif_pos (known.mp here)]
    exact forall₂_replace related mirror
  · rw [dif_neg here, dif_neg fun there => here (known.mpr there)]
    exact List.rel_append mirror (List.Forall₂.cons ⟨rfl, related⟩ List.Forall₂.nil)

/-- An access to one key keeps the caches in step. -/
theorem Mirror.touch (k : K) : Mirror R (touch c k) (touch c' k) := by
  unfold Lru.touch
  rcases mirror.lookup k with ⟨here, there⟩ | ⟨v, v', here, there, related⟩
  · rw [here, there]
    exact mirror
  · rw [here, there]
    exact (mirror.erase k).set related

end

section Sizes

variable {size : V → Nat} {size' : V' → Nat} (sized : ∀ k v v', R k v v' → size v = size' v')

include sized

omit [DecidableEq K] in
/-- Related entries have one total size. -/
theorem sum_eq_of_forall₂ {xs : List (K × V)} {ys : List (K × V')}
    (mirror : List.Forall₂ (fun a b => a.1 = b.1 ∧ R a.1 a.2 b.2) xs ys) :
    (xs.map fun e => size e.2).sum = (ys.map fun e => size' e.2).sum := by
  induction mirror with
  | nil => rfl
  | @cons a b xs ys related _ ih =>
    rw [List.map_cons, List.map_cons, List.sum_cons, List.sum_cons, ih, sized a.1 a.2 b.2 related.2]

omit [DecidableEq K] in
/-- Both caches evict the same keys. -/
theorem Mirror.evict (mirror : Mirror R c c') (maxsize need : Nat) :
    Mirror R (evict size maxsize need c) (evict size' maxsize need c') := by
  -- The decision to go on depends on the total size only, which the caches share.
  unfold Mirror at mirror ⊢
  simp only [Lru.evict]
  generalize c.items = xs at mirror ⊢
  generalize c'.items = ys at mirror ⊢
  induction mirror with
  | nil => exact List.Forall₂.nil
  | @cons a b xs ys related rest ih =>
    have total := sum_eq_of_forall₂ sized (List.Forall₂.cons related rest)
    simp only [evictList, total]
    split
    · exact ih
    · exact List.Forall₂.cons related rest

/-- Related values of one size enter both caches, and keep them in step. -/
theorem Mirror.put (mirror : Mirror R c c') {maxsize : Nat} {k : K} {v : V} {v' : V'}
    (related : R k v v') (fits : size v ≤ maxsize) :
    ∃ d d', put size maxsize c k v = some d ∧ put size' maxsize c' k v' = some d' ∧
      Mirror R d d' := by
  have same := sized k v v' related
  unfold Lru.put
  rw [if_neg (by omega), if_neg (by omega), ← same]
  have room := mirror.evict sized maxsize (size v)
  rcases mirror.lookup k with ⟨here, there⟩ | ⟨old, old', here, there, oldRelated⟩
  · -- A new key always makes room for itself.
    rw [here, there]
    exact ⟨_, _, rfl, rfl, (room.set related).touch k⟩
  · rw [here, there]
    simp only [Option.elim_some, sized k old old' oldRelated]
    refine ⟨_, _, rfl, rfl, Mirror.touch (Mirror.set ?_ related) k⟩
    by_cases grows : size' old' < size v
    · simp only [grows, decide_true, if_true]
      exact room
    · simp only [grows, decide_false, Bool.false_eq_true, if_false]
      exact mirror

end Sizes

end Mimir.Theory.Lru
