import Mathlib
import Georeferencing.Proofs.Projection.Spherical

/-! # Isometric latitude

The departure of an ellipsoid from a sphere is a positive number, so that the ordinate of a latitude
strictly between the poles is a logarithm, that of the equator included. Its logarithmic derivative
is what the derivative of an ordinate and that of a refined latitude have in common.
-/

namespace Georeferencing

open Elementary

namespace Latitude

section Laws

/-- What finding a latitude relies on of the functions of analysis. -/
structure Lawful (K : Type) [Field K] [LinearOrder K] [Elementary K] : Prop where
  abs_sin_le_one : ∀ x : K, |sin x| ≤ 1
  pow_pos : ∀ x y : K, 0 < x → 0 < pow x y
  tan_pos : ∀ φ : K, |φ| < halfPi → 0 < tan (quarterPi + 0.5 * φ)
  atan_inv_tan : ∀ φ : K, |φ| < halfPi →
    atan (1 / tan (quarterPi + 0.5 * φ)) = halfPi - (quarterPi + 0.5 * φ)

theorem lawful_real : Lawful ℝ where
  abs_sin_le_one := Real.abs_sin_le_one
  pow_pos _ y hx := Real.rpow_pos_of_pos hx y
  tan_pos _ := circular_real.tan_half_latitude_pos
  atan_inv_tan _ := circular_real.atan_inv_tan_half_latitude

variable {K : Type} [Field K] [LinearOrder K] [IsStrictOrderedRing K] [Elementary K] {e s φ : K}

theorem Lawful.abs_mul_sin_lt_one (h : Lawful K) (he : 0 ≤ e) (he' : e < 1) (φ : K) :
    |e * sin φ| < 1 := by
  rw [abs_mul, abs_of_nonneg he]
  exact (mul_le_of_le_one_right he (h.abs_sin_le_one φ)).trans_lt he'

omit [Elementary K] in
theorem ratio_pos (hs : |s| < 1) : 0 < (1 - s) / (1 + s) := by
  obtain ⟨hlow, hhigh⟩ := abs_lt.mp hs
  apply div_pos
  · linarith
  · linarith

theorem Lawful.departure_pos (h : Lawful K) (hs : |s| < 1) (e : K) : 0 < departure s e :=
  h.pow_pos _ _ (ratio_pos hs)

theorem Lawful.isometricRatio_pos (h : Lawful K) (he : 0 ≤ e) (he' : e < 1) (hφ : |φ| < halfPi) :
    0 < isometricRatio φ (e * sin φ) e :=
  mul_pos (h.tan_pos φ hφ) (h.departure_pos (h.abs_mul_sin_lt_one he he' φ) e)

end Laws

/-! ## Real numbers -/

section Real

variable {e x φ : ℝ}

theorem departure_real (s e : ℝ) : departure s e = ((1 - s) / (1 + s)) ^ (e / 2) := by
  have hhalf : (0.5 * e : ℝ) = e / 2 := by
    norm_num
    ring
  rw [departure, hhalf]
  rfl

theorem one_sub_sq_pos {s : ℝ} (hs : |s| < 1) : 0 < 1 - s ^ 2 :=
  sub_pos.mpr ((sq_lt_one_iff_abs_lt_one s).mpr hs)

/-- The departure changes in proportion to itself. -/
theorem hasDerivAt_departure (he : 0 ≤ e) (he' : e < 1) (x : ℝ) :
    HasDerivAt (fun x => departure (e * sin x) e)
      (-(e ^ 2 * Real.cos x / (1 - (e * Real.sin x) ^ 2)) * departure (e * sin x) e) x := by
  have hs : |e * Real.sin x| < 1 := lawful_real.abs_mul_sin_lt_one he he' x
  obtain ⟨hlow, hhigh⟩ := abs_lt.mp hs
  have hplus : 1 + e * Real.sin x ≠ 0 := by linarith
  have hminus : 1 - e * Real.sin x ≠ 0 := by linarith
  have hsin : HasDerivAt (fun x => e * Real.sin x) (e * Real.cos x) x :=
    (Real.hasDerivAt_sin x).const_mul e
  have hratio : HasDerivAt (fun x => (1 - e * Real.sin x) / (1 + e * Real.sin x))
      (-(2 * e * Real.cos x) / (1 + e * Real.sin x) ^ 2) x := by
    refine ((hsin.const_sub 1).div (hsin.const_add 1) hplus).congr_deriv ?_
    ring
  have hsquares : 1 - (e * Real.sin x) ^ 2 = (1 + e * Real.sin x) * (1 - e * Real.sin x) := by ring
  simp only [departure_real]
  refine (hratio.rpow_const (.inl (ratio_pos hs).ne')).congr_deriv ?_
  change _ = _ * ((1 - e * Real.sin x) / (1 + e * Real.sin x)) ^ (e / 2)
  rw [Real.rpow_sub_one (ratio_pos hs).ne', hsquares]
  field_simp

end Real

end Latitude

namespace Mercator

variable {m : Mercator ℝ} {φ : ℝ}

/-- Strictly between the poles the equator is no exception to the ellipsoidal formula. -/
theorem latitudeToOrdinate_ellipsoidal (hm : m.isSpherical = false) (hφ : |φ| < Real.pi / 2) :
    m.latitudeToOrdinate φ =
      Real.log (Latitude.isometricRatio φ (m.eccentricity * sin φ) m.eccentricity) := by
  have hinside : Scalar.abs φ < (halfPi : ℝ) := by rwa [Exact.abs_eq, halfPi_real]
  simp only [latitudeToOrdinate, if_pos hinside, hm, Bool.false_eq_true, if_false]
  split
  · next hsin =>
    rw [circular_real.sin_eq_zero φ (halfPi_real ▸ hφ) (beq_iff_eq.mp hsin)]
    have hzero : sin (0 : ℝ) = 0 := Real.sin_zero
    rw [Latitude.isometricRatio, Latitude.departure_real, hzero]
    simp only [mul_zero, add_zero, sub_zero, div_one, Real.one_rpow, circular_real.tan_quarterPi,
      mul_one, Real.log_one]
  · rfl

end Mercator

end Georeferencing
