import Mathlib.Data.List.Forall2
import Mathlib.Logic.Basic

/-! Exceptions as results, and rules of pre- and postconditions for computations that may raise. -/

namespace Mimir.Python

open List

/-- The built-in exception classes a raise or a failed lookup can produce. -/
inductive ErrKind where
  | assertion
  | value
  | runtime
  | index
  | key
  | type
  | notImplemented
  | zeroDivision
  | overflow
  | attribute
  /-- A loop ran past the number of turns it was given. -/
  | fuel
  deriving DecidableEq, Repr

/-- A raised exception, with the place in the program that raised it. -/
structure PyErr (Site : Type) where
  kind : ErrKind
  site : Site
  deriving DecidableEq, Repr

variable {ε α β : Type}

/-- An `assert`, or a guard that raises, in front of the rest of a computation. -/
def require (c : Prop) [Decidable c] (e : ε) : Except ε Unit :=
  if c then .ok () else .error e

/-- Reading an optional lookup whose absence raises. -/
def orRaise (found : Option α) (e : ε) : Except ε α :=
  match found with
  | some a => .ok a
  | none => .error e

theorem ok_bind (a : α) (f : α → Except ε β) : ((.ok a : Except ε α) >>= f) = f a := rfl

variable {x : Except ε α} {f : α → Except ε β} {e : ε} {xs : List α}

/-- A sequence returns normally exactly when both of its halves do. -/
theorem bind_eq_ok {b : β} : (x >>= f) = .ok b ↔ ∃ a, x = .ok a ∧ f a = .ok b := by
  -- A raise in the first half is the raise of the whole.
  cases x with
  | error => simp [Bind.bind, Except.bind]
  | ok => simp [Bind.bind, Except.bind]

/-- A sequence raises exactly when its first half does or its second half does after it. -/
theorem bind_eq_error : (x >>= f) = .error e ↔ x = .error e ∨ ∃ a, x = .ok a ∧ f a = .error e := by
  -- The first half either hands over a value or ends the run.
  cases x with
  | error => simp [Bind.bind, Except.bind]
  | ok => simp [Bind.bind, Except.bind]

/-- Returning a value returns only that value. -/
theorem pure_eq_ok {a b : α} : (pure a : Except ε α) = .ok b ↔ a = b := by
  simp [Pure.pure, Except.pure]

/-- A guard lets the run continue exactly when its condition holds. -/
@[simp] theorem require_eq_ok {c : Prop} [Decidable c] {u : Unit} :
    require c e = .ok u ↔ c := by
  unfold require
  split <;> simp_all

/-- A guard raises its own exception and no other. -/
@[simp] theorem require_eq_error {c : Prop} [Decidable c] {f : ε} :
    require c e = .error f ↔ ¬ c ∧ e = f := by
  unfold require
  split <;> simp_all

/-- A lookup that did not raise found its value. -/
@[simp] theorem orRaise_eq_ok {found : Option α} {a : α} :
    orRaise found e = .ok a ↔ found = some a := by
  cases found <;> simp [orRaise]

/-- A loop over a list returns one result for each element. -/
theorem mapM_eq_ok {ys : List β} :
    xs.mapM f = .ok ys ↔ List.Forall₂ (fun x y => f x = .ok y) xs ys := by
  -- The induction follows the loop, which stops at the first raise.
  induction xs generalizing ys with
  | nil =>
    rw [mapM_nil, pure_eq_ok, forall₂_nil_left_iff]
    exact eq_comm
  | cons x xs ih =>
    rw [mapM_cons, bind_eq_ok]
    constructor
    · rintro ⟨y, first, tail⟩
      obtain ⟨rest, later, built⟩ := bind_eq_ok.mp tail
      rw [pure_eq_ok] at built
      subst built
      exact .cons first (ih.mp later)
    · intro all
      cases all with
      | cons first later =>
        exact ⟨_, first, bind_eq_ok.mpr ⟨_, ih.mpr later, rfl⟩⟩

/-- A loop whose turns never raise returns, and its results are those of its turns. -/
theorem mapM_ok {Q : α → β → Prop} (each : ∀ x ∈ xs, ∃ y, f x = .ok y ∧ Q x y) :
    ∃ ys, xs.mapM f = .ok ys ∧ List.Forall₂ Q xs ys := by
  induction xs with
  | nil => exact ⟨[], rfl, .nil⟩
  | cons x xs ih =>
    obtain ⟨y, first, holds⟩ := each x (mem_cons_self ..)
    obtain ⟨ys, later, all⟩ := ih fun z member => each z (mem_cons_of_mem _ member)
    exact ⟨y :: ys, mapM_eq_ok.mpr (.cons first (mapM_eq_ok.mp later)), .cons holds all⟩

/-- Running a computation decides whether it returns something with a property. -/
instance decidableReturns {x : Except ε α} {P : α → Prop} [DecidablePred P] :
    Decidable (∃ a, x = .ok a ∧ P a) :=
  match x with
  | .ok a => decidable_of_iff (P a) (by simp)
  | .error _ => isFalse (by simp)

instance decidableReturnsPair {x : Except ε (α × β)} {P : α → β → Prop} [∀ a b, Decidable (P a b)] :
    Decidable (∃ a b, x = .ok (a, b) ∧ P a b) :=
  match x with
  | .ok (a, b) => decidable_of_iff (P a b) (by simp)
  | .error _ => isFalse (by simp)

/-- So it does for what it raises. -/
instance decidableRaises {x : Except ε α} {P : ε → Prop} [DecidablePred P] :
    Decidable (∃ e, x = .error e ∧ P e) :=
  match x with
  | .ok _ => isFalse (by simp)
  | .error e => decidable_of_iff (P e) (by simp)

/-- What a computation may do: its results meet `post`, and its exceptions meet `fail`. -/
def Sat (run : Except ε α) (post : α → Prop) (fail : ε → Prop) : Prop :=
  -- The two outcomes are described separately, so no outcome is left unconstrained.
  match run with
  | .ok a => post a
  | .error e => fail e

namespace Sat

variable {post : α → Prop} {fail : ε → Prop}

/-- The rule for a normal return. -/
theorem ok {a : α} (holds : post a) : Sat (.ok a : Except ε α) post fail := holds

variable {e : ε} {x : Except ε α} {f : α → Except ε β}

/-- The rule for a raise. -/
theorem error (allowed : fail e) : Sat (.error e : Except ε α) post fail := allowed

/-- The rule of sequencing: the postcondition of the first half is what the second half starts from. -/
theorem bind {Q : α → Prop} {goal : β → Prop}
    (first : Sat x Q fail) (second : ∀ a, Q a → Sat (f a) goal fail) :
    Sat (x >>= f) goal fail := by
  cases x with
  | error => exact first
  | ok a => exact second a first

/-- The rule of consequence. -/
theorem mono {weaker : α → Prop} {more : ε → Prop} (sat : Sat x post fail)
    (weaken : ∀ a, post a → weaker a) (allow : ∀ e, fail e → more e) : Sat x weaker more := by
  cases x with
  | error e => exact allow e sat
  | ok a => exact weaken a sat

/-- A described computation also returns what it returns. -/
theorem self (sat : Sat x post fail) : Sat x (fun a => x = .ok a ∧ post a) fail := by
  cases x with
  | error => exact sat
  | ok => exact ⟨rfl, sat⟩

/-- The rule for a guard: the rest of the run may use its condition. -/
theorem require {c : Prop} [Decidable c] (allowed : ¬ c → fail e) :
    Sat (require c e) (fun _ => c) fail := by
  unfold Python.require
  split
  · rename_i holds; exact holds
  · rename_i fails; exact allowed fails

/-- The rule for a lookup: the rest of the run has the value found. -/
theorem orRaise {found : Option α} (allowed : found = none → fail e) :
    Sat (orRaise found e) (fun a => found = some a) fail := by
  cases found with
  | none => exact allowed rfl
  | some => exact rfl

/-- A guard before the rest of a run. -/
theorem guarded {c : Prop} [Decidable c] {goal : β → Prop} {f : Unit → Except ε β} (allowed : fail e)
    (rest : c → Sat (f ()) goal fail) : Sat (Python.require c e >>= f) goal fail :=
  bind (require fun _ => allowed) fun _ => rest

/-- A lookup before the rest of a run. -/
theorem found {key : Option α} {goal : β → Prop} (allowed : fail e)
    (rest : ∀ a, key = some a → Sat (f a) goal fail) : Sat (Python.orRaise key e >>= f) goal fail :=
  bind (orRaise fun _ => allowed) rest

/-- A described computation that returned met its postcondition. -/
theorem post_of_ok {a : α} (sat : Sat x post fail) (done : x = .ok a) : post a := by
  subst done; exact sat

/-- A described computation that raised met its exceptional postcondition. -/
theorem fail_of_error (sat : Sat x post fail) (raised : x = .error e) : fail e := by
  subst raised; exact sat

/-- A computation is described by what holds of every value it can return and every raise. -/
theorem intro (results : ∀ a, x = .ok a → post a)
    (raises : ∀ e, x = .error e → fail e) : Sat x post fail := by
  cases x with
  | error e => exact raises e rfl
  | ok a => exact results a rfl

/-- A loop over a list raises only what one of its turns raises. -/
theorem mapM {xs : List α} (each : ∀ x ∈ xs, Sat (f x) (fun _ => True) fail) :
    Sat (xs.mapM f) (fun _ => True) fail := by
  induction xs with
  | nil => exact trivial
  | cons x xs ih =>
    rw [mapM_cons]
    refine bind (each x (mem_cons_self ..)) fun _ _ => ?_
    exact bind (ih fun y member => each y (mem_cons_of_mem _ member)) fun _ _ => trivial

end Sat

end Mimir.Python
