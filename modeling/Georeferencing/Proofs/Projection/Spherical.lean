import Mathlib
import Georeferencing.Projection.Mercator
import Georeferencing.Proofs.Projection.Analysis

/-! # Spherical formulas

Strictly between the poles the latitude on a sphere and its ordinate determine each other. The
equator, which the projection hands through, is no exception to the formula, so that one closed form
serves for both ways.
-/

namespace Georeferencing

open Elementary

theorem Latitude.abs_sphericalOfRatio_lt {K : Type} [Field K] [LinearOrder K]
    [IsStrictOrderedRing K] [Elementary K] (hc : Circular K) {t : K} (ht : 0 < t) :
    |sphericalOfRatio t| < halfPi := by
  have hlow := hc.atan_pos t ht
  have hhigh := hc.atan_lt t ht
  rw [sphericalOfRatio, abs_lt]
  norm_num
  constructor
  · linarith
  · linarith

namespace Mercator

theorem ordinateToLatitude_of_isSpherical {α : Type} [Scalar α] [Elementary α] {m : Mercator α}
    (hm : m.isSpherical = true) (y : α) :
    m.ordinateToLatitude y = .ok (Latitude.sphericalOfRatio (exp (-y))) := by
  rw [ordinateToLatitude, if_pos hm]

section Laws

variable {K : Type} [Field K] [LinearOrder K] [IsStrictOrderedRing K] [Elementary K]
  {m : Mercator K} {φ y : K}

/-- Strictly between the poles an ordinate is given by the formula, that of the equator included. -/
theorem latitudeToOrdinate_of_isSpherical (hc : Circular K) (he : Exponential K)
    (hm : m.isSpherical = true) (hφ : |φ| < halfPi) :
    m.latitudeToOrdinate φ = log (tan (quarterPi + 0.5 * φ)) := by
  have hinside : Scalar.abs φ < halfPi := by rwa [Exact.abs_eq]
  simp only [latitudeToOrdinate, if_pos hinside, if_pos hm]
  split
  · next hsin =>
    rw [hc.sin_eq_zero φ hφ (beq_iff_eq.mp hsin), mul_zero, add_zero, hc.tan_quarterPi, he.log_one]
  · rfl

/-- The latitude of the ordinate of a latitude. -/
theorem sphericalOfRatio_exp_neg (hc : Circular K) (he : Exponential K) (hm : m.isSpherical = true)
    (hφ : |φ| < halfPi) :
    Latitude.sphericalOfRatio (exp (-m.latitudeToOrdinate φ)) = φ := by
  have hpos := hc.tan_half_latitude_pos hφ
  rw [latitudeToOrdinate_of_isSpherical hc he hm hφ, he.exp_neg, he.exp_log _ hpos,
    Latitude.sphericalOfRatio, hc.atan_inv_tan_half_latitude hφ, halfPi_eq, quarterPi_eq]
  norm_num
  ring

/-- The ordinate of the latitude of an ordinate. -/
theorem latitudeToOrdinate_sphericalOfRatio (hc : Circular K) (he : Exponential K)
    (hm : m.isSpherical = true) (y : K) :
    m.latitudeToOrdinate (Latitude.sphericalOfRatio (exp (-y))) = y := by
  have hpos := he.exp_pos (-y)
  have hangle : quarterPi + 0.5 * Latitude.sphericalOfRatio (exp (-y)) =
      halfPi - atan (exp (-y)) := by
    rw [Latitude.sphericalOfRatio, halfPi_eq, quarterPi_eq]
    norm_num
    ring
  rw [latitudeToOrdinate_of_isSpherical hc he hm (Latitude.abs_sphericalOfRatio_lt hc hpos), hangle,
    ← hc.atan_inv _ hpos, hc.tan_atan _ (one_div_pos.mpr hpos), ← he.exp_neg, neg_neg, he.log_exp]

/-- The spherical formulas take every point strictly between the poles to the map and back, and
every point of the map to the globe and back. Longitude and abscissa are the same. -/
theorem spherical_there_and_back (hc : Circular K) (he : Exponential K)
    (hm : m.isSpherical = true) :
    (∀ lambda φ, |φ| < halfPi →
      ∃ y, m.project lambda φ = (lambda, y) ∧ m.unproject lambda y = .ok (lambda, φ)) ∧
    ∀ x y, ∃ φ, |φ| < halfPi ∧ m.unproject x y = .ok (x, φ) ∧ m.project x φ = (x, y) := by
  constructor
  · intro lambda φ hφ
    refine ⟨m.latitudeToOrdinate φ, rfl, ?_⟩
    rw [unproject, ordinateToLatitude_of_isSpherical hm, sphericalOfRatio_exp_neg hc he hm hφ]
    rfl
  · intro x y
    refine ⟨_, Latitude.abs_sphericalOfRatio_lt hc (he.exp_pos (-y)), ?_, ?_⟩
    · rw [unproject, ordinateToLatitude_of_isSpherical hm]
      rfl
    · rw [project, latitudeToOrdinate_sphericalOfRatio hc he hm]

/-- A point of a web map of the real numbers in the north, and one far in the south. -/
theorem spherical_there_and_back_web :
    let m : Mercator ℝ := .pseudo
    (∃ y, m.project 2 (Real.pi / 3) = (2, y) ∧ m.unproject 2 y = .ok (2, Real.pi / 3)) ∧
      ∃ φ, |φ| < Real.pi / 2 ∧ m.unproject 3 (-40) = .ok (3, φ) ∧ m.project 3 φ = (3, -40) := by
  intro m
  obtain ⟨hthere, hback⟩ := spherical_there_and_back circular_real exponential_real
    (rfl : m.isSpherical = true)
  constructor
  · apply hthere
    rw [halfPi_real, abs_of_pos (by positivity)]
    linarith [Real.pi_pos]
  · rw [← halfPi_real]
    exact hback 3 (-40)

end Laws

/-! ## Real numbers -/

section Real

variable {m : Mercator ℝ} {φ : ℝ}

theorem ordinateToLatitude_spherical (hm : m.isSpherical = true) (y : ℝ) :
    m.ordinateToLatitude y = .ok (Real.pi / 2 - 2 * Real.arctan (Real.exp (-y))) := by
  rw [ordinateToLatitude_of_isSpherical hm, Latitude.sphericalOfRatio, halfPi_real]
  change Except.ok (Real.pi / 2 - 2.0 * _) = _
  norm_num
  rfl

/-- Strictly between the poles the spherical formulas take every latitude back. -/
theorem ordinateToLatitude_latitudeToOrdinate (hm : m.isSpherical = true)
    (hφ : |φ| < Real.pi / 2) : m.ordinateToLatitude (m.latitudeToOrdinate φ) = .ok φ := by
  rw [ordinateToLatitude_of_isSpherical hm,
    sphericalOfRatio_exp_neg circular_real exponential_real hm (halfPi_real ▸ hφ)]

/-- Every ordinate is that of the latitude that the spherical formulas find for it. -/
theorem latitudeToOrdinate_ordinateToLatitude (hm : m.isSpherical = true) {y : ℝ}
    (hφ : m.ordinateToLatitude y = .ok φ) : |φ| < Real.pi / 2 ∧ m.latitudeToOrdinate φ = y := by
  rw [ordinateToLatitude_of_isSpherical hm] at hφ
  cases hφ
  rw [← halfPi_real]
  exact ⟨Latitude.abs_sphericalOfRatio_lt circular_real (Real.exp_pos _),
    latitudeToOrdinate_sphericalOfRatio circular_real exponential_real hm y⟩

end Real

end Mercator

end Georeferencing
