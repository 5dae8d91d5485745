import Mathlib.Data.List.Basic

/-! Exchanges of two entries of a list, and how many of them put the entries of one kind in front. -/

namespace Mimir.Theory

open List

variable {α : Type} {p : α → Bool} {xs : List α}

/-- Exchanging the entries of two places. -/
def exchange (xs : List α) (pair : Nat × Nat) : List α :=
  match xs[pair.1]?, xs[pair.2]? with
  | some a, some b => (xs.set pair.1 b).set pair.2 a
  | _, _ => xs

/-- A sequence of exchanges. -/
def exchangeAll (xs : List α) (pairs : List (Nat × Nat)) : List α := pairs.foldl exchange xs

/-- All entries of one kind come before all others. -/
def Separated (p : α → Bool) (xs : List α) : Prop :=
  ∃ front back, xs = front ++ back ∧ (∀ x ∈ front, p x = true) ∧ ∀ x ∈ back, p x = false

/-- The entries of one kind from a place on. -/
def behind (p : α → Bool) (n : Nat) (xs : List α) : Nat := (xs.drop n).countP p

/-- An exchange of two entries, or none at all. -/
theorem exchange_cases (xs : List α) (pair : Nat × Nat) :
    exchange xs pair = xs ∨ ∃ (first : pair.1 < xs.length) (second : pair.2 < xs.length),
      exchange xs pair = (xs.set pair.1 xs[pair.2]).set pair.2 xs[pair.1] := by
  unfold exchange
  split
  · rename_i a b first second
    obtain ⟨below, rfl⟩ := List.getElem?_eq_some_iff.mp first
    obtain ⟨below', rfl⟩ := List.getElem?_eq_some_iff.mp second
    exact .inr ⟨below, below', rfl⟩
  · exact .inl rfl

theorem exchange_perm (xs : List α) (pair : Nat × Nat) : (exchange xs pair).Perm xs := by
  rcases exchange_cases xs pair with same | ⟨first, second, moved⟩
  · rw [same]
  · rw [moved]
    exact set_set_perm first second

theorem exchangeAll_perm (xs : List α) (pairs : List (Nat × Nat)) :
    (exchangeAll xs pairs).Perm xs := by
  induction pairs generalizing xs with
  | nil => exact .refl _
  | cons pair pairs ih => exact (ih _).trans (exchange_perm xs pair)

variable {pair : Nat × Nat} {pairs : List (Nat × Nat)}

/-- Other places keep their entries. -/
theorem getElem?_exchange {i : Nat} (first : i ≠ pair.1) (second : i ≠ pair.2) :
    (exchange xs pair)[i]? = xs[i]? := by
  rcases exchange_cases xs pair with same | ⟨_, _, moved⟩
  · rw [same]
  · rw [moved, getElem?_set_ne second.symm, getElem?_set_ne first.symm]

/-- One exchange brings at most one entry to the front. -/
theorem behind_exchange (p : α → Bool) (xs : List α) (n : Nat) (pair : Nat × Nat) :
    behind p n xs ≤ behind p n (exchange xs pair) + 1 := by
  rcases exchange_cases xs pair with same | ⟨first, second, moved⟩
  · rw [same]
    omega
  · unfold behind
    rw [moved, drop_set, drop_set]
    have here : ∀ i, i < xs.length → ¬ i < n → i - n < (xs.drop n).length := by
      intro i below later
      rw [length_drop]
      omega
    by_cases low : pair.1 < n <;> by_cases low' : pair.2 < n <;>
      simp only [low, low', if_true, if_false]
    · omega
    · rw [countP_set (here _ second low')]
      split <;> split <;> omega
    · rw [countP_set (here _ first low)]
      split <;> split <;> omega
    · -- Both entries stay behind the place.
      have swapped := set_set_perm (here _ first low) (here _ second low')
      simp only [getElem_drop, show n + (pair.1 - n) = pair.1 by omega,
        show n + (pair.2 - n) = pair.2 by omega] at swapped
      rw [swapped.countP_eq]
      omega

/-- As many exchanges as entries that have to come to the front. -/
theorem behind_exchangeAll (p : α → Bool) (xs : List α) (n : Nat) (pairs : List (Nat × Nat)) :
    behind p n xs ≤ behind p n (exchangeAll xs pairs) + pairs.length := by
  induction pairs generalizing xs with
  | nil => exact Nat.le_refl _
  | cons pair pairs ih =>
    have one := behind_exchange p xs n pair
    have others := ih (exchange xs pair)
    rw [exchangeAll, foldl_cons, ← exchangeAll, length_cons]
    omega

/-- What an exchange does that brings one entry to the front. -/
def Useful (p : α → Bool) (n : Nat) (xs : List α) (pair : Nat × Nat) : Prop :=
  pair.1 < n ∧ n ≤ pair.2 ∧ (∃ a, xs[pair.1]? = some a ∧ p a = false) ∧
    ∃ b, xs[pair.2]? = some b ∧ p b = true

theorem Useful.behind {n : Nat} (useful : Useful p n xs pair) :
    behind p n (exchange xs pair) + 1 = behind p n xs := by
  obtain ⟨low, high, ⟨a, first, other⟩, b, second, kind⟩ := useful
  obtain ⟨below, rfl⟩ := List.getElem?_eq_some_iff.mp first
  obtain ⟨below', rfl⟩ := List.getElem?_eq_some_iff.mp second
  have inside : pair.2 - n < (xs.drop n).length := by
    rw [length_drop]
    omega
  have member : xs[pair.2] ∈ xs.drop n := by
    rw [mem_iff_getElem]
    exact ⟨pair.2 - n, inside, by rw [getElem_drop]; congr 1; omega⟩
  have counted := countP_pos_iff.mpr ⟨_, member, kind⟩
  unfold Theory.behind exchange
  simp only [first, second]
  rw [drop_set, drop_set, if_pos low, if_neg (by omega), countP_set inside,
    getElem_drop]
  simp only [show n + (pair.2 - n) = pair.2 by omega, kind, other, if_true]
  simp only [Bool.false_eq_true, if_false]
  omega

/-- Useful exchanges of different entries bring one entry each to the front. -/
theorem behind_useful {n : Nat}
    (useful : ∀ pair ∈ pairs, Useful p n xs pair) (firsts : (pairs.map Prod.fst).Nodup)
    (seconds : (pairs.map Prod.snd).Nodup) :
    behind p n (exchangeAll xs pairs) + pairs.length = behind p n xs := by
  induction pairs generalizing xs with
  | nil => rfl
  | cons pair pairs ih =>
    have here := useful pair (mem_cons_self ..)
    simp only [map_cons, nodup_cons, mem_map, not_exists, not_and] at firsts seconds
    -- The other exchanges are of other entries, which are still in their places.
    have later : ∀ other ∈ pairs, Useful p n (exchange xs pair) other := fun other member => by
      obtain ⟨low, high, first, second⟩ := useful other (mem_cons_of_mem _ member)
      have apart := firsts.1 other member
      have apart' := seconds.1 other member
      obtain ⟨low', high', _⟩ := here
      refine ⟨low, high, ?_, ?_⟩
      · rw [getElem?_exchange apart (by omega)]
        exact first
      · rw [getElem?_exchange (by omega) apart']
        exact second
    have rest := ih later firsts.2 seconds.2
    have one := here.behind
    rw [exchangeAll, foldl_cons, ← exchangeAll, length_cons]
    omega

/-- The entries of one kind are in front when none is behind as many places. -/
theorem separated_iff : Separated p xs ↔ behind p (xs.countP p) xs = 0 := by
  unfold behind
  constructor
  · rintro ⟨front, back, rfl, all, none⟩
    have count : front.countP p = front.length := countP_eq_length.mpr all
    have empty : back.countP p = 0 := countP_eq_zero.mpr fun x member => by simp [none x member]
    rw [countP_append, count, empty, Nat.add_zero, drop_left, empty]
  · intro empty
    have parts : xs.countP p = (xs.take (xs.countP p)).countP p + (xs.drop (xs.countP p)).countP p := by
      conv_lhs => rw [← take_append_drop (xs.countP p) xs, countP_append]
    rw [empty] at parts
    have most := length_take_le (xs.countP p) xs
    have fewer := countP_le_length (p := p) (l := xs.take (xs.countP p))
    refine ⟨_, _, (take_append_drop (xs.countP p) xs).symm,
      countP_eq_length.mp (by omega), fun x member => ?_⟩
    exact Bool.eq_false_iff.mpr (countP_eq_zero.mp empty x member)

/-- No fewer exchanges separate a list than entries stand too far behind. -/
theorem behind_le_of_separated
    (separated : Separated p (exchangeAll xs pairs)) : behind p (xs.countP p) xs ≤ pairs.length := by
  have none := separated_iff.mp separated
  rw [(exchangeAll_perm xs pairs).countP_eq] at none
  have few := behind_exchangeAll p xs (xs.countP p) pairs
  omega

/-- The places of the entries of one kind, counted from a given number. -/
def indicesWhere (q : α → Bool) (xs : List α) (start : Nat) : List Nat :=
  ((xs.zipIdx start).filter fun entry => q entry.1).map Prod.snd

section Indices

variable {q : α → Bool} {start : Nat}

theorem mem_indicesWhere {i : Nat} :
    i ∈ indicesWhere q xs start ↔ start ≤ i ∧ ∃ a, xs[i - start]? = some a ∧ q a = true := by
  simp only [indicesWhere, mem_map, mem_filter, Prod.exists, exists_eq_right,
    mk_mem_zipIdx_iff_le_and_getElem?_sub]
  constructor
  · rintro ⟨a, ⟨later, found⟩, kind⟩
    exact ⟨later, a, found, kind⟩
  · rintro ⟨later, a, found, kind⟩
    exact ⟨a, ⟨later, found⟩, kind⟩

theorem length_indicesWhere : (indicesWhere q xs start).length = xs.countP q := by
  unfold indicesWhere
  rw [length_map, ← countP_eq_length_filter]
  conv_rhs => rw [← zipIdx_map_fst start xs, countP_map]
  rfl

theorem nodup_indicesWhere : (indicesWhere q xs start).Nodup := by
  have all : ((xs.zipIdx start).map Prod.snd).Nodup := by
    rw [zipIdx_map_snd]
    exact nodup_range'
  exact all.sublist (filter_sublist.map _)

theorem indicesWhere_append (xs ys : List α) :
    indicesWhere q (xs ++ ys) start =
      indicesWhere q xs start ++ indicesWhere q ys (start + xs.length) := by
  unfold indicesWhere
  rw [zipIdx_append, filter_append, map_append]

theorem indicesWhere_map {β : Type} (f : β → α) (ys : List β) :
    indicesWhere q (ys.map f) start = indicesWhere (q ∘ f) ys start := by
  unfold indicesWhere
  rw [zipIdx_map, filter_map, map_map]
  rfl

end Indices

/-- Others from the front change places with entries of the kind from the back, until one stands in front. -/
def splitPairs (p : α → Bool) (xs : List α) : List (Nat × Nat) :=
  ((indicesWhere (fun x => !p x) xs 0).zip (indicesWhere p xs 0).reverse).takeWhile
    fun pair => !decide (pair.2 < (indicesWhere p xs 0).length)

/-- These exchanges are useful, of different entries, and as many as entries stand too far behind. -/
theorem splitPairs_useful (p : α → Bool) (xs : List α) :
    (∀ pair ∈ splitPairs p xs, Useful p (xs.countP p) xs pair) ∧
      ((splitPairs p xs).map Prod.fst).Nodup ∧ ((splitPairs p xs).map Prod.snd).Nodup ∧
      (splitPairs p xs).length = behind p (xs.countP p) xs := by
  have fewer := countP_le_length (p := p) (l := xs)
  obtain ⟨front, back, size, eq⟩ : ∃ front back, front.length = xs.countP p ∧ xs = front ++ back :=
    ⟨xs.take (xs.countP p), xs.drop (xs.countP p), length_take_of_le fewer,
      (take_append_drop _ _).symm⟩
  have count : front.countP p + back.countP p = xs.countP p := by rw [eq, countP_append]
  have kinds := length_eq_countP_add_countP p (l := front)
  -- As many others in front as entries of the kind behind.
  have same : (indicesWhere (fun x => !p x) front 0).length =
      (indicesWhere p back front.length).reverse.length := by
    rw [length_reverse, length_indicesWhere, length_indicesWhere]
    simp only [decide_not, Bool.decide_eq_true] at kinds
    omega
  have kept : splitPairs p xs =
      (indicesWhere (fun x => !p x) front 0).zip (indicesWhere p back front.length).reverse := by
    unfold splitPairs
    rw [length_indicesWhere, ← size, eq, indicesWhere_append, indicesWhere_append, reverse_append,
      Nat.zero_add, zip_append same, takeWhile_append_of_pos]
    · -- The first entry of the kind in front ends the loop.
      cases rest : (indicesWhere (fun x => !p x) back front.length).zip (indicesWhere p front 0).reverse with
      | nil => rw [takeWhile_nil, append_nil]
      | cons pair =>
        have member : pair ∈ (indicesWhere (fun x => !p x) back front.length).zip
          (indicesWhere p front 0).reverse := by
          rw [rest]
          exact mem_cons_self ..
        obtain ⟨_, a, found, _⟩ := mem_indicesWhere.mp (mem_reverse.mp (of_mem_zip member).2)
        have below := (List.getElem?_eq_some_iff.mp found).1
        rw [takeWhile_cons_of_neg (by simp only [Bool.not_eq_true', decide_eq_false_iff_not]; omega),
          append_nil]
    · intro pair member
      have later := (mem_indicesWhere.mp (mem_reverse.mp (of_mem_zip member).2)).1
      simp only [Bool.not_eq_true', decide_eq_false_iff_not]
      omega
  refine ⟨fun pair member => ?_, ?_, ?_, ?_⟩
  · rw [kept] at member
    obtain ⟨first, second⟩ := of_mem_zip member
    obtain ⟨_, a, found, other⟩ := mem_indicesWhere.mp first
    obtain ⟨later, b, found', kind⟩ := mem_indicesWhere.mp (mem_reverse.mp second)
    have below := (List.getElem?_eq_some_iff.mp found).1
    refine ⟨by omega, by omega, ⟨a, ?_, by simpa using other⟩, b, ?_, kind⟩
    · rw [eq, getElem?_append_left (by omega)]
      exact found
    · rw [eq, getElem?_append_right later]
      exact found'
  · rw [kept, map_fst_zip (by omega)]
    exact nodup_indicesWhere
  · rw [kept, map_snd_zip (by omega)]
    exact (reverse_perm _).nodup_iff.mpr nodup_indicesWhere
  · rw [kept, length_zip, same, Nat.min_self, length_reverse, length_indicesWhere, behind,
      ← size, eq, drop_left]

/-- They separate the list, and no fewer exchanges do. -/
theorem splitPairs_separate (p : α → Bool) (xs : List α) :
    Separated p (exchangeAll xs (splitPairs p xs)) := by
  obtain ⟨useful, firsts, seconds, size⟩ := splitPairs_useful p xs
  have left := behind_useful useful firsts seconds
  rw [separated_iff, (exchangeAll_perm xs _).countP_eq]
  omega

end Mimir.Theory
