import Mathlib.Data.List.Forall2
import Mathlib.Data.List.Range
import Mimir.Python.Seq

/-! Rows of different lengths laid out one after the other, and the array operations that walk over them. -/

namespace Mimir.Theory

open Python List

variable {α β γ : Type}

/-- Prefix sums that start behind a given number. -/
def cumsumFrom (start : Int) : List Nat → List Int
  | [] => []
  | n :: ns => (start + n) :: cumsumFrom (start + n) ns

/-- `cumsum`: where each row ends. -/
def cumsum (ns : List Nat) : List Int := cumsumFrom 0 ns

/-- Where each row starts, from a given number on. -/
def offsetsFrom (start : Int) : List Nat → List Int
  | [] => []
  | n :: ns => start :: offsetsFrom (start + n) ns

/-- `arange`. -/
def arange (n : Nat) : List Int := (List.range n).map Int.ofNat

/-- `repeat`: each value as often as its count says. -/
def repeatEach (values : List α) (counts : List Nat) : List α :=
  (List.zipWith (fun value n => List.replicate n value) values counts).flatten

/-- Elementwise sums. -/
def addEach (xs ys : List Int) : List Int := List.zipWith (· + ·) xs ys

/-- Elementwise differences. -/
def subEach (xs ys : List Int) : List Int := List.zipWith (· - ·) xs ys

/-- `xs[i]`, counting negative indices from the end. -/
def pyGet? (xs : List α) (i : Int) : Option α :=
  if i < -xs.length then none else xs[(if i < 0 then i + xs.length else i).toNat]?

/-- `xs[indices]`. -/
def gather (xs : List α) (indices : List Int) : Option (List α) := indices.mapM (pyGet? xs)

/-- `xs[mask] = values`: the marked places get the values in order. -/
def maskAssign : List α → List Bool → List α → List α
  | _ :: xs, true :: mask, value :: values => value :: maskAssign xs mask values
  | x :: xs, _ :: mask, values => x :: maskAssign xs mask values
  | xs, _, _ => xs

/-- `xs[indices] = values`. -/
def setAt (xs : List α) (indices : List Int) (values : List α) : List α :=
  (indices.zip values).foldl (fun xs entry => xs.set entry.1.toNat entry.2) xs

/-- The flat positions of a row that starts at a given one. -/
def span (start : Int) (n : Nat) : List Int := (List.range n).map fun j => start + (j : Nat)

/-- The flat positions of all rows. -/
def spans (ns : List Nat) : List (List Int) := List.zipWith span (offsetsFrom 0 ns) ns

@[simp] theorem length_span (start : Int) (n : Nat) : (span start n).length = n := by simp [span]

/-- The last prefix sum is the sum. -/
theorem getLast?_cumsumFrom (start : Int) {ns : List Nat} (nonempty : ns ≠ []) :
    (cumsumFrom start ns).getLast? = some (start + ns.sum) := by
  induction ns generalizing start with
  | nil => exact absurd rfl nonempty
  | cons n ns ih =>
    cases ns with
    | nil => simp [cumsumFrom]
    | cons =>
      have later := ih (start + n) (cons_ne_nil _ _)
      simp only [cumsumFrom, getLast?_cons_cons] at later ⊢
      rw [later]
      simp only [sum_cons, Nat.cast_add, Option.some.injEq]
      omega

/-- A row ends where it starts plus its length. -/
theorem subEach_cumsumFrom (start : Int) (ns : List Nat) :
    subEach (cumsumFrom start ns) (ns.map Int.ofNat) = offsetsFrom start ns := by
  induction ns generalizing start with
  | nil => rfl
  | cons n ns ih =>
    have here := ih (start + n)
    unfold subEach at here ⊢
    simp [cumsumFrom, offsetsFrom, here]

/-- The batched arange of a flat array: positions within each row. -/
theorem subEach_arange (ns : List Nat) :
    subEach (arange ns.sum) (repeatEach (offsetsFrom 0 ns) ns) = (ns.map arange).flatten := by
  -- The flat positions of the rest lie behind those of the first rows.
  have shifted : ∀ (start : Nat), subEach ((List.range' start ns.sum).map Int.ofNat)
      (repeatEach (offsetsFrom start ns) ns) = (ns.map arange).flatten := by
    induction ns with
    | nil => exact fun _ => rfl
    | cons n ns ih =>
      intro start
      have later := ih (start + n)
      unfold subEach repeatEach at later ⊢
      simp only [sum_cons, offsetsFrom, zipWith_cons_cons, flatten_cons,
        map_cons, ← range'_append_1, map_append]
      rw [zipWith_append (by simp)]
      push_cast at later
      rw [later]
      congr 1
      apply ext_getElem?
      intro i
      by_cases below : i < n
      · simp only [arange, getElem?_zipWith, getElem?_map, getElem?_replicate, below]
        simp only [getElem?_range', getElem?_range, below, if_true, Option.map_some]
        simp
      · simp [arange, below]
  have here := shifted 0
  rw [← range_eq_range'] at here
  exact here

/-- Reading an array at a list of positions. -/
theorem gather_eq_some {xs vals : List α} {indices : List Int} :
    gather xs indices = some vals ↔
      List.Forall₂ (fun i x => pyGet? xs i = some x) indices vals := by
  unfold gather
  induction indices generalizing vals with
  | nil =>
    simp only [mapM_nil, forall₂_nil_left_iff]
    exact ⟨fun h => (Option.some.inj h).symm, fun h => by rw [h]; rfl⟩
  | cons i indices ih =>
    rw [mapM_cons, forall₂_cons_left_iff]
    constructor
    · intro read
      obtain ⟨x, found, read⟩ := Option.bind_eq_some_iff.mp read
      obtain ⟨rest, others, built⟩ := Option.bind_eq_some_iff.mp read
      exact ⟨x, rest, found, ih.mp others, (Option.some.inj built).symm⟩
    · rintro ⟨x, rest, found, others, rfl⟩
      rw [found, ih.mpr others]
      rfl

/-- The positions of each row lead to its entries. -/
theorem reads_rows (before behind : List α) (rows : List (List α)) :
    List.Forall₂ (List.Forall₂ fun i x => pyGet? (before ++ rows.flatten ++ behind) i = some x)
      (List.zipWith span (offsetsFrom before.length (rows.map List.length)) (rows.map List.length))
      rows := by
  induction rows generalizing before with
  | nil => exact .nil
  | cons row rows ih =>
    have later := ih (before ++ row)
    simp only [map_cons, offsetsFrom, zipWith_cons_cons, flatten_cons,
      length_append, Nat.cast_add, append_assoc] at later ⊢
    refine .cons (forall₂_iff_get.mpr ⟨length_span .., fun i first second => ?_⟩) later
    have below : i < row.length := second
    have position : (span before.length row.length).get ⟨i, first⟩ = (before.length + i : Nat) := by
      simp [span]
    rw [position]
    unfold pyGet?
    rw [if_neg (by omega), if_neg (by omega), Int.toNat_natCast,
      getElem?_append_right (by omega), Nat.add_sub_cancel_left,
      getElem?_append_left below]
    exact getElem?_eq_getElem below

/-- What is done alike to two related rows keeps them related. -/
theorem forall₂_zipWith {R : List α → List β → Prop} {as : List (List α)} {bs : List (List β)}
    (f : List α → γ → List α) (g : List β → γ → List β) (alike : ∀ a b c, R a b → R (f a c) (g b c))
    (related : List.Forall₂ R as bs) (cs : List γ) :
    List.Forall₂ R (List.zipWith f as cs) (List.zipWith g bs cs) := by
  induction related generalizing cs with
  | nil => simp
  | cons here _ ih =>
    cases cs with
    | nil => simp
    | cons c cs => exact .cons (alike _ _ c here) (ih cs)

/-- Reading a flat array at a part of each row, cut off in the same way from positions and entries. -/
theorem gather_rows (f : List Int → γ → List Int) (g : List α → γ → List α) (before behind : List α)
    (rows : List (List α)) (alike : ∀ {R : Int → α → Prop} {a b} (c), List.Forall₂ R a b →
      List.Forall₂ R (f a c) (g b c)) (cs : List γ) :
    gather (before ++ rows.flatten ++ behind) (List.zipWith f (List.zipWith span
        (offsetsFrom before.length (rows.map List.length)) (rows.map List.length)) cs).flatten =
      some (List.zipWith g rows cs).flatten :=
  gather_eq_some.mpr (rel_flatten (forall₂_zipWith _ _ (fun _ _ c here => alike c here)
    (reads_rows before behind rows) cs))

section Rows

variable {ρ : Type} {n : ρ → Nat}

/-- A flat array with a row for each element, computed from the place in the row. -/
def rowsOf (n : ρ → Nat) (entry : ρ → Nat → α) (xs : List ρ) : List α :=
  xs.flatMap fun x => (List.range (n x)).map (entry x)

/-- The places of all rows. -/
def places (n : ρ → Nat) (xs : List ρ) : List (ρ × Nat) :=
  xs.flatMap fun x => (List.range (n x)).map fun j => (x, j)

/-- A flat array has an entry for each place. -/
theorem rowsOf_eq_map (entry : ρ → Nat → α) (xs : List ρ) :
    rowsOf n entry xs = (places n xs).map fun place => entry place.1 place.2 := by
  unfold rowsOf places
  rw [map_flatMap]
  simp only [map_map, Function.comp_def]

variable {xs : List ρ}

/-- Arrays with the same entries. -/
theorem rowsOf_congr {a b : ρ → Nat → α} (same : ∀ x ∈ xs, ∀ j < n x, a x j = b x j) :
    rowsOf n a xs = rowsOf n b xs :=
  flatMap_congr fun x member =>
    map_congr_left fun j small => same x member j (mem_range.mp small)

/-- A place is a row with an index below its length. -/
theorem mem_places {place : ρ × Nat} : place ∈ places n xs ↔ place.1 ∈ xs ∧ place.2 < n place.1 := by
  unfold places
  rw [mem_flatMap]
  constructor
  · rintro ⟨x, member, listed⟩
    obtain ⟨j, small, rfl⟩ := mem_map.mp listed
    exact ⟨member, mem_range.mp small⟩
  · rintro ⟨member, small⟩
    exact ⟨place.1, member, mem_map.mpr ⟨place.2, mem_range.mpr small, rfl⟩⟩

theorem length_places (xs : List ρ) : (places n xs).length = (xs.map n).sum := by
  simp [places, length_flatMap]

/-- One value everywhere. -/
theorem replicate_sum (v : α) (xs : List ρ) :
    List.replicate (xs.map n).sum v = rowsOf n (fun _ _ => v) xs := by
  rw [rowsOf_eq_map, map_const', length_places]

/-- Rows of rows with one value each. -/
theorem rowsOf_mul (k : Nat) (f : ρ → α) (xs : List ρ) :
    rowsOf (fun x => n x * k) (fun x _ => f x) xs =
      rowsOf (fun _ => k) (fun place _ => f place.1) (places n xs) := by
  unfold rowsOf places
  rw [flatMap_assoc]
  refine flatMap_congr fun x _ => ?_
  rw [flatMap_map]
  simp only [map_const', length_range, List.flatMap, map_const', flatten_replicate_replicate]

/-- Rows of one length, cut out of the flat array. -/
theorem chunks_rowsOf (width : Nat) (entry : ρ → Nat → α) (xs : List ρ) :
    ((List.range xs.length).map fun v => ((rowsOf (fun _ => width) entry xs).drop (v * width)).take
      width) = xs.map fun x => (List.range width).map (entry x) := by
  induction xs with
  | nil => rfl
  | cons x xs ih =>
    have split : rowsOf (fun _ => width) entry (x :: xs) =
      (List.range width).map (entry x) ++ rowsOf (fun _ => width) entry xs := rfl
    rw [length_cons, range_succ_eq_map, map_cons, map_map, map_cons, ← ih]
    congr 1
    · rw [split, Nat.zero_mul, drop_zero, take_append_of_le_length (by simp),
        take_of_length_le (by simp)]
    · refine map_congr_left fun v _ => ?_
      simp only [Function.comp_apply, split, Nat.succ_mul]
      rw [Nat.add_comm, ← drop_drop, drop_left' (by simp)]

/-- Repeated values. -/
theorem repeatEach_map (f : ρ → α) (xs : List ρ) :
    repeatEach (xs.map f) (xs.map n) = rowsOf n (fun x _ => f x) xs := by
  unfold repeatEach rowsOf
  rw [zipWith_map, zipWith_self, List.flatMap]
  simp only [map_const', length_range]

/-- The batched arange. -/
theorem flatten_arange (xs : List ρ) :
    ((xs.map n).map arange).flatten = rowsOf n (fun _ j => (j : Int)) xs := by
  unfold rowsOf
  rw [map_map, List.flatMap]
  rfl

/-- Operations on flat arrays work entry by entry. -/
theorem zipWith_rowsOf (f : α → β → γ) (a : ρ → Nat → α) (b : ρ → Nat → β) (xs : List ρ) :
    List.zipWith f (rowsOf n a xs) (rowsOf n b xs) = rowsOf n (fun x j => f (a x j) (b x j)) xs := by
  induction xs with
  | nil => rfl
  | cons x xs ih =>
    unfold rowsOf at ih ⊢
    simp only [flatMap_cons]
    rw [zipWith_append (by simp), ih, zipWith_map, zipWith_self]

theorem map_rowsOf (f : α → β) (a : ρ → Nat → α) (xs : List ρ) :
    (rowsOf n a xs).map f = rowsOf n (fun x j => f (a x j)) xs := by
  unfold rowsOf
  rw [map_flatMap]
  simp only [map_map, Function.comp_def]

/-- Assigning to the first place of each row. -/
theorem maskAssign_rowsOf (a : ρ → Nat → α) (value : ρ → α) (nonempty : ∀ x ∈ xs, 0 < n x) :
    maskAssign (rowsOf n a xs) (rowsOf n (fun _ j => ((j : Int) == 0)) xs) (xs.map value) =
      rowsOf n (fun x j => if j = 0 then value x else a x j) xs := by
  -- Places that are not marked are passed by.
  have skip : ∀ (row rest : List α) (mask : List Bool) (values : List α),
      maskAssign (row ++ rest) (List.replicate row.length false ++ mask) values =
        row ++ maskAssign rest mask values := by
    intro row rest mask values
    induction row with
    | nil => rfl
    | cons x row ih =>
      simp only [cons_append, length_cons, replicate_succ]
      cases values <;> simp [maskAssign, ih]
  induction xs with
  | nil => rfl
  | cons x xs ih =>
    have later := ih fun y member => nonempty y (mem_cons_of_mem _ member)
    obtain ⟨k, eq⟩ := Nat.exists_eq_succ_of_ne_zero (nonempty x (mem_cons_self ..)).ne'
    have unmarked : (List.range k).map (fun j => ((j.succ : Int) == 0)) =
        List.replicate ((List.range k).map fun j => a x j.succ).length false := by
      rw [length_map, length_range, eq_replicate_iff]
      refine ⟨by simp, fun b member => ?_⟩
      obtain ⟨j, _, rfl⟩ := mem_map.mp member
      simp only [beq_eq_false_iff_ne]
      omega
    unfold rowsOf at later ⊢
    simp only [flatMap_cons, eq, range_succ_eq_map, map_cons, map_map,
      cons_append, Function.comp_def, Nat.cast_zero, beq_self_eq_true, maskAssign, if_true,
      Nat.succ_ne_zero, if_false]
    rw [unmarked, skip, later]

/-- Assigning to the last place of each row. -/
theorem setAt_rowsOf (a : ρ → Nat → α) (value : ρ → α)
    (nonempty : ∀ x ∈ xs, 0 < n x) (before : List α) :
    setAt (before ++ rowsOf n a xs) ((cumsumFrom before.length (xs.map n)).map (· - 1))
        (xs.map value) =
      before ++ rowsOf n (fun x j => if j + 1 = n x then value x else a x j) xs := by
  induction xs generalizing before with
  | nil => rfl
  | cons x xs ih =>
    have later := ih (fun y member => nonempty y (mem_cons_of_mem _ member))
      (before ++ (List.range (n x)).map fun j => if j + 1 = n x then value x else a x j)
    obtain ⟨k, eq⟩ := Nat.exists_eq_succ_of_ne_zero (nonempty x (mem_cons_self ..)).ne'
    -- The place that is written is the last one of the first row.
    have written : (before ++ ((List.range (n x)).map (a x) ++ rowsOf n a xs)).set
        ((before.length + n x : Int) - 1).toNat (value x) =
        before ++ (List.range (n x)).map (fun j => if j + 1 = n x then value x else a x j) ++
          rowsOf n a xs := by
      have front : (List.range k).map (fun j => if j + 1 = k.succ then value x else a x j) =
          (List.range k).map (a x) := map_congr_left fun j member => by
        rw [if_neg (by have := mem_range.mp member; omega)]
      rw [eq, show ((before.length + (k.succ : Nat) : Int) - 1).toNat = before.length + k by omega,
        set_append_right _ _ (by omega), Nat.add_sub_cancel_left, range_succ,
        map_append, map_append, front, append_assoc ((List.range k).map (a x)),
        set_append_right _ _ (by simp)]
      simp
    have split : ∀ b : ρ → Nat → α,
        rowsOf n b (x :: xs) = (List.range (n x)).map (b x) ++ rowsOf n b xs := fun _ => rfl
    unfold setAt at later ⊢
    simp only [map_cons, cumsumFrom, zip_cons_cons, foldl_cons, split]
    rw [written]
    simp only [length_append, length_map, length_range, Nat.cast_add] at later
    rw [later, append_assoc]

/-- The differences of consecutive entries. -/
def diffs (xs : List Int) : List Int := subEach xs.tail xs.dropLast

/-- Differences undo sums. -/
theorem diffs_scanl (start : Int) (xs : List Int) : diffs (xs.scanl (· + ·) start) = xs := by
  induction xs generalizing start with
  | nil => rfl
  | cons x xs ih =>
    have later := ih (start + x)
    unfold diffs subEach at later ⊢
    rw [scanl_cons, tail_cons]
    cases rest : xs.scanl (· + ·) (start + x) with
    | nil => simp at rest
    | cons y =>
      rw [rest] at later
      have first : y = start + x := by
        cases xs <;> simp_all
      rw [dropLast_cons_cons]
      simp only [tail_cons, zipWith_cons_cons] at later ⊢
      rw [later, first]
      simp

end Rows

end Mimir.Theory
