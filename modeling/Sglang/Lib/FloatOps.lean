/-
# Floating-point operations

A floating-point operation computes an exact result and rounds it.  Of the rounding only that it is
monotone is assumed here, so that what is proved holds for every format and every direction.  An
integer is converted before it meets a float, and the sum of a list may be compensated.
-/
import Mathlib.Algebra.Order.Ring.Rat
import Mathlib.Algebra.Ring.Nat
import Mathlib.Data.Rat.Floor

namespace Lib

/-- How the finite numbers of a format are computed with. -/
structure FloatOps where
  round : ℚ → ℚ
  mono : Monotone round
  sum : List ℚ → ℚ

namespace FloatOps

/-- Arithmetic in which nothing is lost. -/
def exact : FloatOps where
  round := id
  mono := monotone_id
  sum := List.sum

/-- The integer part, towards zero. -/
def truncate (x : ℚ) : ℤ :=
  if 0 ≤ x then ⌊x⌋ else ⌈x⌉

variable (fl : FloatOps)

def ofInt (n : ℤ) : ℚ :=
  fl.round n

def add (x y : ℚ) : ℚ :=
  fl.round (x + y)

def sub (x y : ℚ) : ℚ :=
  fl.round (x - y)

def mul (x y : ℚ) : ℚ :=
  fl.round (x * y)

variable {fl} {x x' y y' : ℚ} {n n' : ℤ}

theorem ofInt_le (h : n ≤ n') : fl.ofInt n ≤ fl.ofInt n' :=
  fl.mono (Int.cast_le.mpr h)

theorem sub_le (hx : x ≤ x') (hy : y' ≤ y) : fl.sub x y ≤ fl.sub x' y' :=
  fl.mono (sub_le_sub hx hy)

theorem mul_le (hx : 0 ≤ x) (hy : y ≤ y') : fl.mul x y ≤ fl.mul x y' :=
  fl.mono (mul_le_mul_of_nonneg_left hy hx)

end FloatOps

end Lib
