import Mathlib.Algebra.Order.Ring.Unbundled.Rat
import Mathlib.Data.Int.Log
import Mathlib.Data.Rat.Floor

/-! Floating-point numbers: double precision with its rounding, overflow and special values. The sign of a
zero, which no comparison sees, is left out. -/

namespace Mimir.Python

/-- A float: a finite number, an infinity, or not a number. -/
inductive PyFloat where
  | nan
  | negInf
  | fin (q : ℚ)
  | posInf
  deriving DecidableEq

namespace PyFloat

/-- `x < y`; a comparison with `nan` is false. -/
def lt : PyFloat → PyFloat → Bool
  | .nan, _ => false
  | _, .nan => false
  | .negInf, .negInf => false
  | .negInf, _ => true
  | .fin p, .fin q => decide (p < q)
  | .fin _, .posInf => true
  | .fin _, .negInf => false
  | .posInf, _ => false

/-- `x <= y`; a comparison with `nan` is false. -/
def le : PyFloat → PyFloat → Bool
  | .nan, _ => false
  | _, .nan => false
  | .negInf, _ => true
  | .fin p, .fin q => decide (p ≤ q)
  | .fin _, .posInf => true
  | .fin _, .negInf => false
  | .posInf, .posInf => true
  | .posInf, _ => false

/-- `x == y`; `nan` equals nothing. -/
def eq (x y : PyFloat) : Bool := x.le y && y.le x

/-- The nearest integer, the even one between two. -/
def roundEven (q : ℚ) : ℤ :=
  let below := q.floor
  if q - below < 1 / 2 ∨ (q - below = 1 / 2 ∧ below % 2 = 0) then below else below + 1

/-- The double nearest to a number; beyond the largest ones it is an infinity. -/
def round (q : ℚ) : PyFloat :=
  -- The distance of neighbouring doubles at this size, which is the same for all subnormal ones.
  let ulp : ℚ := 2 ^ max (Int.log 2 |q| - 52) (-1074)
  let rounded := roundEven (q / ulp) * ulp
  if 2 ^ 1024 ≤ rounded then .posInf else if rounded ≤ -2 ^ 1024 then .negInf else .fin rounded

/-- `x + y`. -/
def add : PyFloat → PyFloat → PyFloat
  | .nan, _ => .nan
  | _, .nan => .nan
  | .posInf, .negInf => .nan
  | .negInf, .posInf => .nan
  | .posInf, _ => .posInf
  | _, .posInf => .posInf
  | .negInf, _ => .negInf
  | _, .negInf => .negInf
  | .fin p, .fin q => round (p + q)

/-- `-x`. -/
def neg : PyFloat → PyFloat
  | .nan => .nan
  | .negInf => .posInf
  | .fin q => .fin (-q)
  | .posInf => .negInf

/-- `fabs(x)`. -/
def abs (x : PyFloat) : PyFloat := if x.lt (.fin 0) then x.neg else x

/-- `x / n` for a positive integer `n`. -/
def divNat : PyFloat → Nat → PyFloat
  | .fin q, n => round (q / n)
  | x, _ => x

/-- Adding a number to a sum, and what the rounding loses to a compensation. -/
def sumStep (acc : PyFloat × PyFloat) (x : PyFloat) : PyFloat × PyFloat :=
  let t := acc.1.add x
  let lost := if x.abs.le acc.1.abs then (acc.1.add t.neg).add x else (x.add t.neg).add acc.1
  (t, acc.2.add lost)

/-- `sum(xs)`, which starts from zero; from CPython 3.12 on it is compensated at its end. -/
def sum (compensated : Bool) : List PyFloat → PyFloat
  | [] => .fin 0
  | x :: xs =>
    let total := xs.foldl sumStep ((PyFloat.fin 0).add x, .fin 0)
    match compensated, total.2 with
    | true, .fin q => if q = 0 then total.1 else total.1.add (.fin q)
    | _, _ => total.1

/-- Asymmetry of the order. -/
theorem lt_asymm {x y : PyFloat} (less : x.lt y = true) : y.lt x = false := by
  cases x <;> cases y <;> simp_all [lt]
  exact less.le

/-- What is not less stays so along a number between. -/
theorem not_lt_trans {x y z : PyFloat} (number : y ≠ .nan) (first : x.lt y = false)
    (second : y.lt z = false) : x.lt z = false := by
  -- Only the comparison of three finite numbers needs the order of the rationals.
  cases x <;> cases y <;> cases z <;> simp_all [lt]
  exact second.trans first

/-- Numbers are equal when they compare equal. -/
theorem eq_iff {x y : PyFloat} (number : x ≠ .nan) : x.eq y = true ↔ x = y := by
  cases x <;> cases y <;> simp_all [eq, le]
  exact le_antisymm_iff.symm

end PyFloat

end Mimir.Python
