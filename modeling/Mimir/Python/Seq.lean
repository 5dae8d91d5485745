import Mathlib.Data.List.Basic
import Mathlib.Tactic.Linarith
import Mathlib.Tactic.Ring

/-! Integer division and slicing with the conventions of the source language. -/

namespace Mimir.Python

open List

/-- Ceiling division, written as the floor of the negated quotient. -/
def cdiv (a b : Int) : Int := -(a.fdiv (-b))

variable {b a n c start stop : Int} {α : Type}

/-- Ceiling division by a positive number through the truncating quotient. -/
theorem cdiv_eq (a : Int) (positive : 0 < b) : cdiv a b = -((-a) / b) := by
  -- The floor of `a / -b` is the floor of `-a / b`, and the divisor `b` is positive.
  unfold cdiv
  rw [← Int.neg_neg a, Int.neg_fdiv_neg, Int.neg_neg, Int.fdiv_eq_ediv_of_nonneg _ positive.le]

/-- Enough whole pieces of size `b` cover `a`. -/
theorem le_cdiv_mul (a : Int) (positive : 0 < b) : a ≤ cdiv a b * b := by
  rw [cdiv_eq a positive]
  have := Int.ediv_mul_le (-a) positive.ne'
  linarith [neg_mul ((-a) / b) b]

/-- The pieces needed to cover `a` are at most any number of pieces that does. -/
theorem cdiv_le_iff (positive : 0 < b) : cdiv a b ≤ n ↔ a ≤ n * b := by
  rw [cdiv_eq a positive, neg_le, Int.le_ediv_iff_mul_le positive]
  constructor <;> intro h <;> linarith [neg_mul n b]

/-- The number of pieces is the one that just covers. -/
theorem cdiv_eq_of (positive : 0 < b) (lower : (n - 1) * b < a) (upper : a ≤ n * b) :
    cdiv a b = n := by
  have most := (cdiv_le_iff positive).mpr upper
  have least : ¬ cdiv a b ≤ n - 1 := fun few => absurd ((cdiv_le_iff positive).mp few) (by omega)
  omega

/-- A larger number needs no fewer pieces. -/
theorem cdiv_mono (le : a ≤ c) (b : Nat) : cdiv a b ≤ cdiv c b := by
  rcases Nat.eq_zero_or_pos b with rfl | positive
  · simp [cdiv]
  · have positive : (0 : Int) < b := by omega
    exact (cdiv_le_iff positive).mpr (le.trans (le_cdiv_mul c positive))

/-- The whole pieces below a number are at most the pieces that cover a larger one. -/
theorem fdiv_le_cdiv (le : a ≤ c) (b : Nat) : a.fdiv b ≤ cdiv c b := by
  rcases Nat.eq_zero_or_pos b with rfl | positive
  · simp [cdiv]
  · have positive : (0 : Int) < b := by omega
    have below := Int.ediv_mul_le a positive.ne'
    have above := le_cdiv_mul c positive
    rw [Int.fdiv_eq_ediv_of_nonneg _ positive.le]
    exact le_of_mul_le_mul_right (by omega) positive

/-- A position inside a list for a slice bound, counting negative bounds from the end. -/
def sliceIndex (length : Nat) (bound : Int) : Nat :=
  if bound < 0 then (bound + length).toNat else bound.toNat

/-- `xs[start:stop]`. -/
def pySlice {α : Type} (xs : List α) (start stop : Int) : List α :=
  (xs.take (sliceIndex xs.length stop)).drop (sliceIndex xs.length start)

/-- A slice with nonnegative bounds drops a head and keeps a length. -/
theorem pySlice_nonneg (xs : List α) (start stop : Nat) :
    pySlice xs start stop = (xs.take stop).drop start := by
  unfold pySlice sliceIndex
  rw [if_neg (by omega), if_neg (by omega), Int.toNat_natCast, Int.toNat_natCast]

/-- A slice takes its elements from the list. -/
theorem mem_of_mem_pySlice {xs : List α} {x : α}
    (member : x ∈ pySlice xs start stop) : x ∈ xs :=
  mem_of_mem_take (mem_of_mem_drop member)

/-- An element of a slice with nonnegative bounds, by its index in the whole list. -/
theorem getElem?_pySlice (xs : List α) (first : 0 ≤ start) (last : 0 ≤ stop) (i : Nat) (x : α) :
    (pySlice xs start stop)[i]? = some x ↔ start + i < stop ∧ xs[start.toNat + i]? = some x := by
  obtain ⟨a, rfl⟩ := Int.eq_ofNat_of_zero_le first
  obtain ⟨b, rfl⟩ := Int.eq_ofNat_of_zero_le last
  rw [pySlice_nonneg, getElem?_drop, getElem?_take, Int.toNat_natCast]
  constructor
  · intro found
    split at found
    · exact ⟨by omega, found⟩
    · cases found
  · rintro ⟨below, found⟩
    rw [if_pos (by omega)]
    exact found

/-- The first position from a given one on at which `sub` occurs. -/
def findFrom {α : Type} [DecidableEq α] (sub : List α) : List α → Nat → Option Nat
  | [], pos => if sub.isEmpty then some pos else none
  | x :: xs, pos => if sub.isPrefixOf (x :: xs) then some pos else findFrom sub xs (pos + 1)

/-- `text.find(sub, start)`, with `none` for the source's `-1`. -/
def pyFind {α : Type} [DecidableEq α] (text sub : List α) (start : Int) : Option Nat :=
  let pos := sliceIndex text.length start
  if text.length < pos then none else findFrom sub (text.drop pos) pos

/-- A position found lies behind the start, and the whole of `sub` fits behind it. -/
theorem findFrom_bounds [DecidableEq α] {sub text : List α} {pos found : Nat}
    (eq : findFrom sub text pos = some found) :
    pos ≤ found ∧ found + sub.length ≤ pos + text.length := by
  induction text generalizing pos with
  | nil =>
    unfold findFrom at eq
    split at eq
    · rename_i empty
      cases eq
      simp [List.isEmpty_iff.mp empty]
    · cases eq
  | cons x xs ih =>
    unfold findFrom at eq
    split at eq
    · rename_i here
      cases eq
      have fits := List.IsPrefix.length_le (List.isPrefixOf_iff_prefix.mp here)
      omega
    · have := ih eq
      simp only [length_cons]
      omega

/-- What is found lies behind the start of the search and inside the text. -/
theorem pyFind_bounds [DecidableEq α] {text sub : List α} {found : Nat}
    (eq : pyFind text sub start = some found) :
    sliceIndex text.length start ≤ found ∧ found + sub.length ≤ text.length := by
  unfold pyFind at eq
  dsimp only at eq
  split at eq
  · cases eq
  · have := findFrom_bounds eq
    rw [length_drop] at this
    omega

/-- Reading a list decides what is said of all its positions. -/
instance decidableForallAt (xs : List α) (P : Nat → α → Prop) [∀ i a, Decidable (P i a)] :
    Decidable (∀ i a, xs[i]? = some a → P i a) :=
  decidable_of_iff (∀ i : Fin xs.length, P i (xs.get i))
    ⟨fun all i a found => by
      obtain ⟨inside, rfl⟩ := List.getElem?_eq_some_iff.mp found
      exact all ⟨i, inside⟩,
    fun all i => all i _ (getElem?_eq_getElem i.isLt)⟩

end Mimir.Python
