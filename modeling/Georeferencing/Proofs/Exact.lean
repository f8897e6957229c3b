import Mathlib.Algebra.BigOperators.Fin
import Mathlib.Algebra.Order.Field.Basic
import Mathlib.Tactic
import Georeferencing.Scalar

/-! # Exact arithmetic

An ordered field is an arithmetic in which nothing is rounded. It has no infinities and every
value is a number, so the derived operations on scalars become the usual ones.
-/

namespace Georeferencing

/-- The arithmetic of an ordered field. -/
instance (priority := low) Scalar.ofField {K : Type} [Field K] [LinearOrder K] : Scalar K where
  decidableLT := inferInstance
  decidableLE := inferInstance

namespace Exact

variable {K : Type} [Field K] [LinearOrder K]

/-- Elementary functions that are right at zero and at a quarter turn, for computing with exact
numbers there. -/
@[reducible]
def quarterTurns : Elementary K where
  pi := 22 / 7
  sqrt x := x
  hypot x y := |x| + |y|
  sin x := if x = 0 then 0 else if x < 0 then -1 else 1
  cos x := if x = 0 then 1 else 0
  tan x := x
  atan x := x
  exp x := 1 + x
  log x := x - 1
  pow x y := if y = 0 then 1 else x

@[simp] theorem isNaN_eq_false (a : K) : Scalar.isNaN a = false := by
  simp [Scalar.isNaN]

@[simp] theorem sum_eq (xs : List K) : Scalar.sum xs = xs.sum := by
  rw [Scalar.sum, neg_zero, List.sum_eq_foldl]

@[simp] theorem product_eq (xs : List K) : Scalar.product xs = xs.prod := by
  rw [Scalar.product, List.prod_eq_foldl]

@[simp] theorem max_eq (a b : K) : Scalar.max a b = max a b := by
  rw [Scalar.max, isNaN_eq_false, if_neg Bool.false_ne_true]
  split
  · next h => rw [max_eq_right h.le]
  · next h => rw [max_eq_left (not_lt.mp h)]

variable [IsStrictOrderedRing K]

@[simp] theorem abs_eq (a : K) : Scalar.abs a = |a| := by
  rw [Scalar.abs]
  split
  · next h => rw [abs_of_neg h]
  · next h => rw [abs_of_nonneg (not_lt.mp h)]

theorem epsilon_pos : 0 < (Scalar.epsilon : K) := by
  rw [Scalar.epsilon]
  norm_num

theorem epsilon_lt_one : (Scalar.epsilon : K) < 1 := by
  rw [Scalar.epsilon]
  norm_num

theorem vanishesBeside_iff {value scale : K} :
    Scalar.vanishesBeside value scale = true ↔ |value| ≤ Scalar.epsilon * scale := by
  simp [Scalar.vanishesBeside]

/-- A value that can be told from zero beside a magnitude is not zero. -/
theorem ne_zero_of_vanishesBeside {value scale : K} (hscale : 0 ≤ scale)
    (h : ¬ Scalar.vanishesBeside value scale = true) : value ≠ 0 := by
  rw [vanishesBeside_iff, not_le] at h
  exact abs_pos.mp ((mul_nonneg epsilon_pos.le hscale).trans_lt h)

end Exact

end Georeferencing
