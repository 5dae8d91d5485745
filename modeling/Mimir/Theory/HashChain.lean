import Mathlib.Data.List.Infix
import Mathlib.Data.List.Nodup

/-! Chains of hashes, in which each hash covers one more input and the hash before it. -/

namespace Mimir.Theory

open List

variable {H X : Type} (f : H × X → H) (seed : H)

/-- The hash of a whole list of inputs. -/
def digest (xs : List X) : H := xs.foldl (fun h x => f (h, x)) seed

/-- The hashes of all nonempty prefixes of a list of inputs. -/
def chain (seed : H) : List X → List H
  | [] => []
  | x :: xs => f (seed, x) :: chain (f (seed, x)) xs

@[simp] theorem digest_nil : digest f seed [] = seed := rfl

theorem digest_cons (x : X) (xs : List X) : digest f seed (x :: xs) = digest f (f (seed, x)) xs := rfl

@[simp] theorem digest_concat (xs : List X) (x : X) :
    digest f seed (xs ++ [x]) = f (digest f seed xs, x) := by
  simp [digest, foldl_append]

@[simp] theorem length_chain (xs : List X) : (chain f seed xs).length = xs.length := by
  induction xs generalizing seed with
  | nil => rfl
  | cons x xs ih => simp [chain, ih]

/-- A chain goes on from the digest of what it has covered. -/
theorem chain_append (xs ys : List X) :
    chain f seed (xs ++ ys) = chain f seed xs ++ chain f (digest f seed xs) ys := by
  induction xs generalizing seed with
  | nil => rfl
  | cons x xs ih => simp [chain, ih, digest_cons]

/-- Each entry of a chain is the digest of the inputs up to it. -/
theorem getElem?_chain (xs : List X) (i : Nat) :
    (chain f seed xs)[i]? = if i < xs.length then some (digest f seed (xs.take (i + 1))) else none := by
  induction xs generalizing seed i with
  | nil => simp [chain]
  | cons x xs ih =>
    cases i with
    | zero => simp [chain, digest]
    | succ => simp [chain, ih, digest_cons]

/-- The last hash of a chain is the digest of everything. -/
theorem getLast?_chain (xs : List X) : ((chain f seed xs).getLast?).getD seed = digest f seed xs := by
  rcases eq_nil_or_concat' xs with rfl | ⟨init, x, rfl⟩
  · rfl
  · rw [chain_append]
    simp [chain]

/-- No chain comes back to a hash it had before. -/
def Acyclic : Prop :=
  ∀ xs ys : List X, xs <+: ys → digest f seed xs = digest f seed ys → xs = ys

variable {f seed}

/-- A chain that never comes back repeats no hash. -/
theorem Acyclic.nodup_chain (acyclic : Acyclic f seed) (xs : List X) : (chain f seed xs).Nodup := by
  rw [nodup_iff_getElem?_ne_getElem?]
  intro i j less below same
  rw [length_chain] at below
  rw [getElem?_chain, getElem?_chain, if_pos (by omega), if_pos below] at same
  -- The shorter of two prefixes would have to be the longer one.
  have equal := acyclic _ _ (take_prefix_take_left (by omega)) (Option.some.inj same)
  have lengths := congrArg List.length equal
  simp only [length_take] at lengths
  omega

variable (injective : Function.Injective f)

include injective

/-- Without collisions, and with a seed that is no hash, a digest determines its inputs. -/
theorem digest_injective (fresh : ∀ input, f input ≠ seed) : Function.Injective (digest f seed) := by
  intro xs
  -- The induction takes inputs off the end, as the digest was built.
  induction xs using List.reverseRecOn with
  | nil =>
    intro ys same
    rcases eq_nil_or_concat' ys with rfl | ⟨init, y, rfl⟩
    · rfl
    · rw [digest_nil, digest_concat] at same
      exact absurd same.symm (fresh _)
  | append_singleton xs x ih =>
    intro ys same
    rcases eq_nil_or_concat' ys with rfl | ⟨init, y, rfl⟩
    · rw [digest_nil, digest_concat] at same
      exact absurd same (fresh _)
    · rw [digest_concat, digest_concat] at same
      have parts := injective same
      rw [Prod.mk.injEq] at parts
      rw [ih parts.1, parts.2]

/-- Without collisions a digest determines its inputs among lists of one length, whatever the seed. -/
theorem digest_injective_of_length {xs ys : List X}
    (length : xs.length = ys.length) (same : digest f seed xs = digest f seed ys) : xs = ys := by
  induction xs using List.reverseRecOn generalizing ys with
  | nil => exact (length_eq_zero_iff.mp length.symm).symm
  | append_singleton xs x ih =>
    rcases eq_nil_or_concat' ys with rfl | ⟨init, y, rfl⟩
    · simp at length
    · rw [digest_concat, digest_concat] at same
      have parts := injective same
      rw [Prod.mk.injEq] at parts
      rw [ih (by simpa using length) parts.1, parts.2]

/-- Without collisions no chain comes back. -/
theorem acyclic_of_injective (fresh : ∀ input, f input ≠ seed) :
    Acyclic f seed :=
  fun _ _ _ same => digest_injective injective fresh same

/-- Equal hashes in two chains stand at one index, behind equal inputs. -/
theorem chain_entry_injective (fresh : ∀ input, f input ≠ seed)
    {xs ys : List X} {i j : Nat} {h : H} (first : (chain f seed xs)[i]? = some h)
    (second : (chain f seed ys)[j]? = some h) :
    i = j ∧ i < xs.length ∧ j < ys.length ∧ xs.take (i + 1) = ys.take (j + 1) := by
  rw [getElem?_chain] at first second
  split at first
  · split at second
    · rename_i below below'
      have same := (Option.some.inj first).trans (Option.some.inj second).symm
      have equal := digest_injective injective fresh same
      have lengths := congrArg List.length equal
      simp only [length_take] at lengths
      exact ⟨by omega, below, below', equal⟩
    · cases second
  · cases first

/-- Equal hashes at one index of two chains stand behind equal inputs. -/
theorem chain_getElem?_injective {xs ys : List X} {i : Nat} {h : H}
    (first : (chain f seed xs)[i]? = some h) (second : (chain f seed ys)[i]? = some h) :
    i < xs.length ∧ i < ys.length ∧ xs.take (i + 1) = ys.take (i + 1) := by
  rw [getElem?_chain] at first second
  split at first
  · split at second
    · rename_i below below'
      have same := (Option.some.inj first).trans (Option.some.inj second).symm
      refine ⟨below, below', digest_injective_of_length injective ?_ same⟩
      rw [length_take, length_take]
      omega
    · cases second
  · cases first

end Mimir.Theory
