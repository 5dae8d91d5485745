import Mathlib.Data.List.Basic
import Mathlib.Data.List.Nodup
import Mathlib.Algebra.BigOperators.Group.List.Basic
import Mathlib.Algebra.GroupWithZero.Nat

/-! Dictionaries that keep the order in which their keys were first inserted. -/

namespace Mimir.Python

open List

/-- A dictionary: its items in insertion order, each key once. -/
structure PyDict (K V : Type) where
  items : List (K × V)
  nodup : (items.map Prod.fst).Nodup

namespace PyDict

variable {K V : Type}

/-- The dictionary with no items. -/
def empty : PyDict K V := ⟨[], by simp⟩

instance : Inhabited (PyDict K V) := ⟨empty⟩

/-- The keys in insertion order. -/
def keys (d : PyDict K V) : List K := d.items.map Prod.fst

/-- The values in insertion order of their keys. -/
def values (d : PyDict K V) : List V := d.items.map Prod.snd

variable [DecidableEq K]

/-- `d.get(k)`. -/
def get? (d : PyDict K V) (k : K) : Option V := d.items.lookup k

/-- `k in d`. -/
def contains (d : PyDict K V) (k : K) : Bool := (d.get? k).isSome

/-- Overwriting a value in place keeps the position of its key. -/
def replace (k : K) (v : V) : List (K × V) → List (K × V)
  | [] => []
  | (k', v') :: rest => if k' = k then (k, v) :: rest else (k', v') :: replace k v rest

/-- Replacing a value changes no key. -/
theorem map_fst_replace (k : K) (v : V) (items : List (K × V)) :
    (replace k v items).map Prod.fst = items.map Prod.fst := by
  induction items with
  | nil => rfl
  | cons item rest ih =>
    rcases item with ⟨k', v'⟩
    unfold replace
    split
    · rename_i same; simp [same]
    · simp [ih]

/-- `d[k] = v`: an old key keeps its place, a new key goes last. -/
def set (d : PyDict K V) (k : K) (v : V) : PyDict K V :=
  if known : k ∈ d.items.map Prod.fst then
    ⟨replace k v d.items, by rw [map_fst_replace]; exact d.nodup⟩
  else
    ⟨d.items ++ [(k, v)], by
      rw [map_append]
      exact List.Nodup.append d.nodup (by simp) (by simpa using known)⟩

/-- `d.pop(k, None)`. -/
def erase (d : PyDict K V) (k : K) : PyDict K V :=
  ⟨d.items.filter (fun item => !decide (item.1 = k)),
    d.nodup.sublist (List.Sublist.map _ filter_sublist)⟩

@[simp] theorem get?_empty (k : K) : (empty : PyDict K V).get? k = none := rfl

/-- Looking up past the first item. -/
theorem lookup_cons_ite (k k' : K) (v' : V) (rest : List (K × V)) :
    List.lookup k ((k', v') :: rest) = if k = k' then some v' else List.lookup k rest := by
  rw [lookup_cons]
  by_cases same : k = k'
  · simp [same]
  · simp [same, beq_eq_false_iff_ne.mpr same]

variable {d : PyDict K V} {k k' : K} {v : V}

/-- An item is in the dictionary exactly when its key is looked up to its value. -/
theorem get?_eq_some_iff : d.get? k = some v ↔ (k, v) ∈ d.items := by
  -- Distinct keys make the first match the only match.
  rcases d with ⟨items, nodup⟩
  unfold get?
  induction items with
  | nil => simp
  | cons item rest ih =>
    rcases item with ⟨k', v'⟩
    simp only [map_cons, nodup_cons] at nodup
    rw [lookup_cons_ite]
    by_cases same : k = k'
    · subst same
      simp only [↓reduceIte, Option.some.injEq, mem_cons, Prod.mk.injEq, true_and]
      constructor
      · intro eq; exact .inl eq.symm
      · rintro (eq | member)
        · exact eq.symm
        · exact absurd (mem_map_of_mem (f := Prod.fst) member) nodup.1
    · simp only [same, ↓reduceIte, mem_cons, Prod.mk.injEq, false_and, false_or]
      exact ih nodup.2

/-- A key is absent exactly when no item carries it. -/
theorem get?_eq_none_iff : d.get? k = none ↔ k ∉ d.keys := by
  unfold get? keys
  rw [lookup_eq_none_iff]
  simp only [mem_map, not_exists, not_and, bne_iff_ne, ne_eq]
  constructor
  · intro absent item member eq; exact absent item member eq.symm
  · intro absent item member eq; exact absent item member eq.symm

/-- The keys are those with a value. -/
theorem mem_keys_iff : k ∈ d.keys ↔ ∃ v, d.get? k = some v := by
  rw [← not_iff_not, ← get?_eq_none_iff, not_exists]
  exact Option.eq_none_iff_forall_ne_some

@[simp] theorem contains_iff : d.contains k = true ↔ k ∈ d.keys := by
  unfold contains
  rw [Option.isSome_iff_exists, mem_keys_iff]

omit [DecidableEq K] in
/-- No key occurs twice. -/
theorem keys_nodup (d : PyDict K V) : d.keys.Nodup := d.nodup

/-- Looking up in an overwritten list of items. -/
theorem lookup_replace (k k' : K) (v : V) (items : List (K × V)) (known : k ∈ items.map Prod.fst) :
    (replace k v items).lookup k' = if k' = k then some v else items.lookup k' := by
  induction items with
  | nil => simp at known
  | cons item rest ih =>
    rcases item with ⟨k0, v0⟩
    unfold replace
    by_cases here : k0 = k
    · subst here
      by_cases same : k' = k0 <;> simp [lookup_cons_ite, same]
    · have tail : k ∈ rest.map Prod.fst := by simpa [Ne.symm here] using known
      simp only [here, ↓reduceIte, lookup_cons_ite, ih tail]
      by_cases same : k' = k0
      · subst same; simp [here]
      · simp [same]

/-- Assigning to a key changes that key's value only. -/
theorem get?_set (d : PyDict K V) (k k' : K) (v : V) :
    (d.set k v).get? k' = if k' = k then some v else d.get? k' := by
  unfold set get?
  split
  · rename_i known; exact lookup_replace k k' v d.items known
  · rename_i fresh
    rw [lookup_append]
    by_cases same : k' = k
    · subst same
      have absent : d.items.lookup k' = none := get?_eq_none_iff.mpr fresh
      simp [absent]
    · simp [same, lookup_cons_ite]

@[simp] theorem get?_set_self (d : PyDict K V) (k : K) (v : V) : (d.set k v).get? k = some v := by
  simp [get?_set]

theorem get?_set_ne (d : PyDict K V) (v : V) (other : k' ≠ k) : (d.set k v).get? k' = d.get? k' := by
  simp [get?_set, other]

/-- Removing a key removes that key only. -/
theorem get?_erase (d : PyDict K V) (k k' : K) :
    (d.erase k).get? k' = if k' = k then none else d.get? k' := by
  -- Membership of items decides both sides.
  apply Option.ext
  intro v
  rw [get?_eq_some_iff]
  unfold erase
  by_cases same : k' = k
  · subst same; simp
  · simp only [mem_filter, Bool.not_eq_eq_eq_not, Bool.not_true,
      decide_eq_false_iff_not, same, not_false_eq_true, and_true, ↓reduceIte]
    exact get?_eq_some_iff.symm

@[simp] theorem get?_erase_self (d : PyDict K V) (k : K) : (d.erase k).get? k = none := by
  simp [get?_erase]

theorem get?_erase_ne (d : PyDict K V) (other : k' ≠ k) : (d.erase k).get? k' = d.get? k' := by
  simp [get?_erase, other]

@[simp] theorem mem_keys_set :
    k' ∈ (d.set k v).keys ↔ k' = k ∨ k' ∈ d.keys := by
  rw [mem_keys_iff, mem_keys_iff, get?_set]
  by_cases same : k' = k <;> simp [same]

@[simp] theorem mem_keys_erase :
    k' ∈ (d.erase k).keys ↔ k' ≠ k ∧ k' ∈ d.keys := by
  rw [mem_keys_iff, mem_keys_iff, get?_erase]
  by_cases same : k' = k <;> simp [same]

omit [DecidableEq K] in
@[simp] theorem keys_empty : (empty : PyDict K V).keys = [] := rfl

section Total

variable (weight : V → Nat)

/-- The total weight of the values of a dictionary. -/
def total (d : PyDict K V) : Nat := (d.items.map fun item => weight item.2).sum

omit [DecidableEq K] in
@[simp] theorem total_empty : (empty : PyDict K V).total weight = 0 := rfl

/-- The value of a key, with a default, and its share of the total. -/
def weightAt (d : PyDict K V) (k : K) : Nat := ((d.get? k).map weight).getD 0

/-- A dictionary's total is the share of one key and the total without it. -/
theorem total_eq_erase_add (d : PyDict K V) (k : K) :
    d.total weight = (d.erase k).total weight + d.weightAt weight k := by
  -- The only item the filter drops is the one the lookup finds.
  rcases d with ⟨items, nodup⟩
  simp only [total, erase, weightAt, get?]
  induction items with
  | nil => simp
  | cons item rest ih =>
    rcases item with ⟨k', v'⟩
    simp only [map_cons, nodup_cons] at nodup
    have rest_eq := ih nodup.2
    by_cases same : k' = k
    · subst same
      have absent : List.lookup k' rest = none := by
        rw [lookup_eq_none_iff]
        intro item member
        simp only [bne_iff_ne, ne_eq]
        intro eq
        exact nodup.1 (eq ▸ mem_map_of_mem (f := Prod.fst) member)
      rw [absent] at rest_eq
      simp only [Option.map_none, Option.getD_none, Nat.add_zero] at rest_eq
      simp only [map_cons, sum_cons, decide_true, Bool.not_true, Bool.false_eq_true,
        not_false_eq_true, filter_cons_of_neg, lookup_cons_ite, ↓reduceIte, Option.map_some,
        Option.getD_some]
      omega
    · have other : ¬ k = k' := fun eq => same eq.symm
      simp only [map_cons, sum_cons, same, decide_false, Bool.not_false,
        filter_cons_of_pos, lookup_cons_ite, other, ↓reduceIte]
      omega

omit weight in
/-- Overwriting a value touches no item with another key. -/
theorem filter_replace (k : K) (v : V) (items : List (K × V)) :
    (replace k v items).filter (fun item => !decide (item.1 = k)) =
      items.filter (fun item => !decide (item.1 = k)) := by
  induction items with
  | nil => rfl
  | cons item rest ih =>
    rcases item with ⟨k', v'⟩
    unfold replace
    by_cases here : k' = k
    · simp [here]
    · simp [here, ih]

/-- Assigning to a key moves only that key's share. -/
theorem total_set (d : PyDict K V) (k : K) (v : V) :
    (d.set k v).total weight = (d.erase k).total weight + weight v := by
  -- Either the value is overwritten in place, or the new item stands last.
  have others : ((d.set k v).erase k).total weight = (d.erase k).total weight := by
    unfold set
    split
    · simp only [total, erase, filter_replace]
    · simp [total, erase, filter_append]
  rw [total_eq_erase_add weight (d.set k v) k, others]
  simp [weightAt]

/-- Every value's weight is part of the total. -/
theorem weightAt_le_total (d : PyDict K V) (k : K) : d.weightAt weight k ≤ d.total weight := by
  rw [total_eq_erase_add weight d k]; omega

end Total

end PyDict

end Mimir.Python
