import Mathlib
import Georeferencing.Proofs.Exact

/-! # Functions of analysis

What the formulas of a projection rely on of the elementary functions over exact numbers. All of it
is true of the real functions.
-/

namespace Georeferencing

namespace Elementary

variable (K : Type) [Field K] [LinearOrder K] [Elementary K]

/-- The circular functions within a quarter turn. -/
structure Circular : Prop where
  sin_eq_zero : ∀ x : K, |x| < halfPi → sin x = 0 → x = 0
  tan_pos : ∀ x : K, 0 < x → x < halfPi → 0 < tan x
  atan_tan : ∀ x : K, 0 < x → x < halfPi → atan (tan x) = x
  atan_pos : ∀ t : K, 0 < t → 0 < atan t
  atan_lt : ∀ t : K, 0 < t → atan t < halfPi
  tan_atan : ∀ t : K, 0 < t → tan (atan t) = t
  atan_inv : ∀ t : K, 0 < t → atan (1 / t) = halfPi - atan t

/-- The exponential function and the logarithm of positive numbers. -/
structure Exponential : Prop where
  exp_pos : ∀ y : K, 0 < exp y
  exp_neg : ∀ y : K, exp (-y) = 1 / exp y
  exp_log : ∀ x : K, 0 < x → exp (log x) = x
  log_exp : ∀ y : K, log (exp y) = y

end Elementary

open Elementary

section Laws

variable {K : Type} [Field K] [LinearOrder K] [IsStrictOrderedRing K] [Elementary K] {φ : K}

theorem halfPi_eq : (halfPi : K) = pi / 2 := by
  rw [halfPi]
  norm_num

theorem quarterPi_eq : (quarterPi : K) = pi / 4 := by
  rw [quarterPi]
  norm_num

/-- Half the way from the south pole to a latitude is within a quarter turn. -/
theorem half_latitude_mem (hφ : |φ| < halfPi) :
    0 < quarterPi + 0.5 * φ ∧ quarterPi + 0.5 * φ < halfPi := by
  obtain ⟨hlow, hhigh⟩ := abs_lt.mp hφ
  rw [halfPi_eq] at hlow hhigh ⊢
  rw [quarterPi_eq]
  norm_num
  constructor
  · linarith
  · linarith

namespace Elementary

theorem Circular.tan_half_latitude_pos (h : Circular K) (hφ : |φ| < halfPi) :
    0 < tan (quarterPi + 0.5 * φ) :=
  h.tan_pos _ (half_latitude_mem hφ).1 (half_latitude_mem hφ).2

theorem Circular.atan_inv_tan_half_latitude (h : Circular K) (hφ : |φ| < halfPi) :
    atan (1 / tan (quarterPi + 0.5 * φ)) = halfPi - (quarterPi + 0.5 * φ) := by
  obtain ⟨hlow, hhigh⟩ := half_latitude_mem hφ
  rw [h.atan_inv _ (h.tan_half_latitude_pos hφ), h.atan_tan _ hlow hhigh]

theorem Circular.tan_quarterPi (h : Circular K) : tan (quarterPi : K) = 1 := by
  have hone := h.atan_inv 1 one_pos
  rw [div_one] at hone
  have hatan : atan (1 : K) = quarterPi := by
    rw [quarterPi_eq]
    rw [halfPi_eq] at hone
    linarith
  rw [← hatan, h.tan_atan 1 one_pos]

theorem Exponential.log_one (h : Exponential K) : log (1 : K) = 0 := by
  have hpos := h.exp_pos 0
  have hneg := h.exp_neg 0
  rw [neg_zero, eq_div_iff hpos.ne'] at hneg
  have hone : exp (0 : K) = 1 := (mul_self_eq_one_iff.mp hneg).resolve_right (by linarith)
  rw [← hone, h.log_exp]

end Elementary

end Laws

/-! ## Real functions -/

/-- The functions of analysis on the real numbers. -/
noncomputable instance : Elementary ℝ where
  pi := Real.pi
  sqrt := Real.sqrt
  hypot x y := Real.sqrt (x ^ 2 + y ^ 2)
  sin := Real.sin
  cos := Real.cos
  tan := Real.tan
  atan := Real.arctan
  exp := Real.exp
  log := Real.log
  pow x y := x ^ y

theorem halfPi_real : (halfPi : ℝ) = Real.pi / 2 := halfPi_eq

theorem circular_real : Circular ℝ where
  sin_eq_zero x hx h := by
    obtain ⟨hlow, hhigh⟩ := abs_lt.mp hx
    rw [halfPi_real] at hlow hhigh
    apply (Real.sin_eq_zero_iff_of_lt_of_lt _ _).mp h
    · linarith [Real.pi_pos]
    · linarith [Real.pi_pos]
  tan_pos x hlow hhigh := Real.tan_pos_of_pos_of_lt_pi_div_two hlow (halfPi_real ▸ hhigh)
  atan_tan x hlow hhigh := by
    rw [halfPi_real] at hhigh
    exact Real.arctan_tan (by linarith [Real.pi_pos]) hhigh
  atan_pos t ht := Real.arctan_pos.mpr ht
  atan_lt t _ := halfPi_real ▸ Real.arctan_lt_pi_div_two t
  tan_atan t _ := Real.tan_arctan t
  atan_inv t ht := by
    rw [halfPi_real, one_div]
    exact Real.arctan_inv_of_pos ht

theorem exponential_real : Exponential ℝ where
  exp_pos := Real.exp_pos
  exp_neg y := by
    rw [one_div]
    exact Real.exp_neg y
  exp_log _ hx := Real.exp_log hx
  log_exp := Real.log_exp

end Georeferencing
