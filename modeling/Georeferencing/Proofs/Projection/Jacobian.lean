import Mathlib
import Georeferencing.Proofs.Matrix.Algebra
import Georeferencing.Proofs.Projection.Isometric

/-! # The derivative of a projection

The matrix of partial derivatives is computed from `t = (1 - sin φ) / cos φ`, of which the mean with
its reciprocal is `1 / cos φ`. Over the real numbers the matrix is the derivative of the projection
at every point strictly between the poles.
-/

namespace Georeferencing

open Elementary

namespace Mercator

section Exact

variable {K : Type} [Field K] [LinearOrder K] [IsStrictOrderedRing K] [Elementary K]
  {m : Mercator K} {φ : K}

omit [Elementary K] in
/-- The mean of the tangent of half the distance from a pole and its reciprocal. -/
theorem half_add_inv {s c : K} (hcircle : s ^ 2 + c ^ 2 = 1) (hc : c ≠ 0) :
    0.5 * ((1 - s) / c + 1 / ((1 - s) / c)) = 1 / c := by
  have hs : 1 - s ≠ 0 := by
    intro hone
    have hzero : c ^ 2 = 0 := by linear_combination hcircle + (1 + s) * hone
    exact hc (pow_eq_zero_iff two_ne_zero |>.mp hzero)
  norm_num
  field_simp
  linear_combination hcircle

omit [IsStrictOrderedRing K] in
theorem derivative_spherical (hm : m.isSpherical = true) (φ : K) :
    m.derivative φ = .of2 1 0 0 (1 / cos φ) := by
  rw [derivative, if_pos hm]

theorem derivative_ellipsoidal (hm : m.isSpherical = false)
    (hcircle : sin φ ^ 2 + cos φ ^ 2 = 1) (hcos : cos φ ≠ 0) :
    m.derivative φ = .of2 1 0 0
      (1 / cos φ - m.eccentricitySquared * cos φ / (1 - (m.eccentricity * sin φ) ^ 2)) := by
  simp only [derivative, hm, Bool.false_eq_true, if_false, half_add_inv hcircle hcos, ← pow_two]

end Exact

section Real

variable {m : Mercator ℝ} {e φ : ℝ}

theorem cos_pos_between (hφ : |φ| < Real.pi / 2) : 0 < Real.cos φ :=
  Real.cos_pos_of_mem_Ioo (abs_lt.mp hφ)

/-- The tangent of half a latitude, taken from the south pole, changes in proportion to itself. -/
theorem hasDerivAt_tan_half_latitude (hφ : |φ| < Real.pi / 2) :
    HasDerivAt (fun x : ℝ => tan (quarterPi + 0.5 * x))
      (tan (quarterPi + 0.5 * φ) * (1 / Real.cos φ)) φ := by
  obtain ⟨hlow, hhigh⟩ := half_latitude_mem (halfPi_real ▸ hφ)
  rw [halfPi_real] at hhigh
  have hsin : 0 < Real.sin (quarterPi + 0.5 * φ) :=
    Real.sin_pos_of_pos_of_lt_pi hlow (by linarith [Real.pi_pos])
  have hcos : 0 < Real.cos (quarterPi + 0.5 * φ) :=
    Real.cos_pos_of_mem_Ioo ⟨by linarith [Real.pi_pos], hhigh⟩
  have hdouble : Real.cos φ =
      2 * Real.sin (quarterPi + 0.5 * φ) * Real.cos (quarterPi + 0.5 * φ) := by
    have hangle : 2 * (quarterPi + 0.5 * φ) = φ + Real.pi / 2 := by
      rw [quarterPi_eq]
      change 2 * (Real.pi / 4 + 0.5 * φ) = _
      norm_num
      ring
    rw [← Real.sin_two_mul, hangle, Real.sin_add_pi_div_two]
  have hinner : HasDerivAt (fun x : ℝ => quarterPi + 0.5 * x) (1 / 2) φ := by
    refine (((hasDerivAt_id φ).const_mul 0.5).const_add quarterPi).congr_deriv ?_
    norm_num
  refine ((Real.hasDerivAt_tan hcos.ne').comp φ hinner).congr_deriv ?_
  change _ = Real.tan (quarterPi + 0.5 * φ) * _
  rw [hdouble, Real.tan_eq_sin_div_cos]
  field_simp

theorem hasDerivAt_isometricRatio (he : 0 ≤ e) (he' : e < 1) (hφ : |φ| < Real.pi / 2) :
    HasDerivAt (fun x => Latitude.isometricRatio x (e * sin x) e)
      (Latitude.isometricRatio φ (e * sin φ) e *
        (1 / Real.cos φ - e ^ 2 * Real.cos φ / (1 - (e * Real.sin φ) ^ 2))) φ := by
  refine ((hasDerivAt_tan_half_latitude hφ).mul
    (Latitude.hasDerivAt_departure he he' φ)).congr_deriv ?_
  rw [Latitude.isometricRatio]
  ring

theorem eventually_between (hφ : |φ| < Real.pi / 2) : ∀ᶠ x in nhds φ, |x| < Real.pi / 2 :=
  (continuous_abs.tendsto φ).eventually_lt_const hφ

theorem hasDerivAt_latitudeToOrdinate_spherical (hm : m.isSpherical = true)
    (hφ : |φ| < Real.pi / 2) : HasDerivAt m.latitudeToOrdinate (1 / Real.cos φ) φ := by
  have hpos : 0 < tan (quarterPi + 0.5 * φ) :=
    circular_real.tan_half_latitude_pos (halfPi_real ▸ hφ)
  have hlog := (hasDerivAt_tan_half_latitude hφ).log hpos.ne'
  rw [mul_div_cancel_left₀ _ hpos.ne'] at hlog
  apply hlog.congr_of_eventuallyEq
  filter_upwards [eventually_between hφ] with x hx
  exact latitudeToOrdinate_of_isSpherical circular_real exponential_real hm (halfPi_real ▸ hx)

theorem hasDerivAt_latitudeToOrdinate_ellipsoidal (hm : m.isSpherical = false)
    (he : 0 ≤ m.eccentricity) (he' : m.eccentricity < 1) (hφ : |φ| < Real.pi / 2) :
    HasDerivAt m.latitudeToOrdinate
      (1 / Real.cos φ -
        m.eccentricity ^ 2 * Real.cos φ / (1 - (m.eccentricity * Real.sin φ) ^ 2)) φ := by
  have hpos := Latitude.lawful_real.isometricRatio_pos he he' (halfPi_real ▸ hφ)
  have hlog := (hasDerivAt_isometricRatio he he' hφ).log hpos.ne'
  rw [mul_div_cancel_left₀ _ hpos.ne'] at hlog
  apply hlog.congr_of_eventuallyEq
  filter_upwards [eventually_between hφ] with x hx
  exact latitudeToOrdinate_ellipsoidal hm hx

/-- The eccentricity of an ellipse, kept with its square. -/
structure Elliptic (m : Mercator ℝ) : Prop where
  nonneg : 0 ≤ m.eccentricity
  lt_one : m.eccentricity < 1
  squared : m.eccentricitySquared = m.eccentricity ^ 2

/-- However a projection is made, its eccentricity is the root of the square. -/
theorem elliptic_ofFormulas {e2 : ℝ} (h : 0 ≤ e2) (h' : e2 < 1) (formulas : MercatorFormulas) :
    (ofFormulas e2 formulas).Elliptic where
  nonneg := Real.sqrt_nonneg e2
  lt_one := (Real.sqrt_lt' one_pos).mpr (by rwa [one_pow])
  squared := (Real.sq_sqrt h).symm

/-- The denominators in the derivative are positive strictly between the poles. -/
theorem Elliptic.denominators_pos (h : m.Elliptic) (hφ : |φ| < Real.pi / 2) :
    0 < Real.cos φ ∧ 0 < (1 - Real.sin φ) / Real.cos φ ∧
      0 < 1 - (m.eccentricity * Real.sin φ) ^ 2 := by
  have hcos := cos_pos_between hφ
  have hsin : Real.sin φ < 1 := by
    have hcircle := Real.sin_sq_add_cos_sq φ
    nlinarith [sq_pos_of_pos hcos]
  refine ⟨hcos, div_pos (sub_pos.mpr hsin) hcos, ?_⟩
  exact Latitude.one_sub_sq_pos (Latitude.lawful_real.abs_mul_sin_lt_one h.nonneg h.lt_one φ)

/-- On an ellipsoid the ordinates grow with the latitude, though less than on a sphere. -/
theorem Elliptic.growth_pos (h : m.Elliptic) (hφ : |φ| < Real.pi / 2) :
    0 < 1 / Real.cos φ -
      m.eccentricity ^ 2 * Real.cos φ / (1 - (m.eccentricity * Real.sin φ) ^ 2) := by
  obtain ⟨hcos, -, hdenominator⟩ := h.denominators_pos hφ
  have hsquare : m.eccentricity ^ 2 < 1 := (sq_lt_one_iff₀ h.nonneg).mpr h.lt_one
  have hfraction : 1 / Real.cos φ -
      m.eccentricity ^ 2 * Real.cos φ / (1 - (m.eccentricity * Real.sin φ) ^ 2) =
        (1 - m.eccentricity ^ 2) / (Real.cos φ * (1 - (m.eccentricity * Real.sin φ) ^ 2)) := by
    rw [div_sub_div _ _ hcos.ne' hdenominator.ne']
    congr 1
    linear_combination -m.eccentricity ^ 2 * Real.sin_sq_add_cos_sq φ
  rw [hfraction]
  exact div_pos (sub_pos.mpr hsquare) (mul_pos hcos hdenominator)

/-- The coefficient that belongs to latitude and ordinate. -/
theorem Elliptic.derivative_entry (h : m.Elliptic) (hm : m.isSpherical = false)
    (hφ : |φ| < Real.pi / 2) :
    m.derivative φ 1 1 = 1 / Real.cos φ -
      m.eccentricity ^ 2 * Real.cos φ / (1 - (m.eccentricity * Real.sin φ) ^ 2) := by
  rw [derivative_ellipsoidal hm (Real.sin_sq_add_cos_sq φ) (cos_pos_between hφ).ne', h.squared]
  rfl

theorem Elliptic.hasDerivAt (h : m.Elliptic) (hφ : |φ| < Real.pi / 2) :
    HasDerivAt m.latitudeToOrdinate (m.derivative φ 1 1) φ := by
  cases hm : m.isSpherical with
  | true =>
    rw [derivative_spherical hm]
    exact hasDerivAt_latitudeToOrdinate_spherical hm hφ
  | false =>
    rw [h.derivative_entry hm hφ]
    exact hasDerivAt_latitudeToOrdinate_ellipsoidal hm h.nonneg h.lt_one hφ

theorem Elliptic.derivative_pos (h : m.Elliptic) (hφ : |φ| < Real.pi / 2) :
    0 < m.derivative φ 1 1 := by
  cases hm : m.isSpherical with
  | true =>
    rw [derivative_spherical hm]
    exact one_div_pos.mpr (cos_pos_between hφ)
  | false =>
    rw [h.derivative_entry hm hφ]
    exact h.growth_pos hφ

/-- A matrix of partial derivatives as a linear map of the plane. -/
noncomputable def tangentMap (d : Square 2 ℝ) : ℝ × ℝ →L[ℝ] ℝ × ℝ :=
  LinearMap.toContinuousLinearMap (Matrix.toLin (.finTwoProd ℝ) (.finTwoProd ℝ) (Block.toMatrix d))

theorem tangentMap_eq (d : Square 2 ℝ) :
    tangentMap d =
      (d 0 0 • ContinuousLinearMap.fst ℝ ℝ ℝ + d 0 1 • ContinuousLinearMap.snd ℝ ℝ ℝ).prod
        (d 1 0 • ContinuousLinearMap.fst ℝ ℝ ℝ + d 1 1 • ContinuousLinearMap.snd ℝ ℝ ℝ) := by
  rw [tangentMap, Matrix.eta_fin_two (Block.toMatrix d)]
  exact Matrix.toLin_finTwoProd_toContinuousLinearMap _ _ _ _

/-- The abscissa is the longitude and the ordinate does not depend on it. -/
theorem derivative_row (m : Mercator ℝ) (φ : ℝ) :
    m.derivative φ 0 0 = 1 ∧ m.derivative φ 0 1 = 0 ∧ m.derivative φ 1 0 = 0 := by
  cases hm : m.isSpherical with
  | true =>
    rw [derivative_spherical hm]
    exact ⟨rfl, rfl, rfl⟩
  | false =>
    rw [derivative, hm, if_neg Bool.false_ne_true]
    exact ⟨rfl, rfl, rfl⟩

theorem Elliptic.hasFDerivAt (h : m.Elliptic) (hφ : |φ| < Real.pi / 2) (lambda : ℝ) :
    HasFDerivAt (fun p : ℝ × ℝ => m.project p.1 p.2) (tangentMap (m.derivative φ)) (lambda, φ) := by
  obtain ⟨hone, hzero, hzero'⟩ := derivative_row m φ
  have hordinate : HasFDerivAt (fun p : ℝ × ℝ => m.latitudeToOrdinate p.2)
      (m.derivative φ 1 1 • ContinuousLinearMap.snd ℝ ℝ ℝ) (lambda, φ) := by
    have hlatitude : HasFDerivAt Prod.snd (ContinuousLinearMap.snd ℝ ℝ ℝ) (lambda, φ) :=
      hasFDerivAt_snd
    exact HasDerivAt.comp_hasFDerivAt (lambda, φ) (h.hasDerivAt hφ) hlatitude
  rw [tangentMap_eq, hone, hzero, hzero', one_smul, zero_smul, zero_smul, add_zero, zero_add]
  exact hasFDerivAt_fst.prodMk hordinate

/-- Strictly between the poles the matrix of partial derivatives is the derivative of the
projection, at the equator too. The ordinates grow with the latitude, and no denominator in the
coefficient of the ellipsoidal formulas vanishes. -/
theorem derivative_spec (h : m.Elliptic) (hφ : |φ| < Real.pi / 2) :
    HasDerivAt m.latitudeToOrdinate (m.derivative φ 1 1) φ ∧
    (∀ lambda, HasFDerivAt (fun p : ℝ × ℝ => m.project p.1 p.2) (tangentMap (m.derivative φ))
      (lambda, φ)) ∧
    0 < m.derivative φ 1 1 ∧
    (m.isSpherical = false → m.derivative φ 1 1 = 1 / Real.cos φ -
      m.eccentricity ^ 2 * Real.cos φ / (1 - (m.eccentricity * Real.sin φ) ^ 2)) ∧
    0 < Real.cos φ ∧ 0 < (1 - Real.sin φ) / Real.cos φ ∧
      0 < 1 - (m.eccentricity * Real.sin φ) ^ 2 :=
  ⟨h.hasDerivAt hφ, h.hasFDerivAt hφ, h.derivative_pos hφ, fun hm => h.derivative_entry hm hφ,
    h.denominators_pos hφ⟩

/-- The equator of a flat ellipsoid, and the parallel of 60 degrees on a web map. -/
theorem derivative_spec_equator :
    let m : Mercator ℝ := .ellipsoidal (.ofFlattening 1 (1 / 5))
    HasDerivAt m.latitudeToOrdinate (16 / 25) 0 ∧
      HasDerivAt (pseudo : Mercator ℝ).latitudeToOrdinate 2 (Real.pi / 3) := by
  intro m
  have hsquared : m.eccentricitySquared = 9 / 25 := by
    change (2.0 * (1 / 5) - 1 / 5 * (1 / 5) : ℝ) = 9 / 25
    norm_num
  have helliptic : m.Elliptic := by
    apply elliptic_ofFormulas
    · exact (by norm_num : (0 : ℝ) ≤ 9 / 25).trans_eq hsquared.symm
    · exact hsquared.trans_lt (by norm_num)
  have hequator : |(0 : ℝ)| < Real.pi / 2 := by
    rw [abs_zero]
    exact Real.pi_div_two_pos
  have hparallel : |Real.pi / 3| < Real.pi / 2 := by
    rw [abs_of_pos (by positivity)]
    linarith [Real.pi_pos]
  constructor
  · obtain ⟨hderiv, -, -, hentry, -⟩ := derivative_spec helliptic hequator
    rw [hentry rfl, ← helliptic.squared, hsquared, Real.cos_zero, Real.sin_zero] at hderiv
    norm_num at hderiv
    exact hderiv
  · obtain ⟨hderiv, -⟩ := derivative_spec (elliptic_ofFormulas le_rfl one_pos .pseudo) hparallel
    have hentry : (pseudo : Mercator ℝ).derivative (Real.pi / 3) 1 1 = 2 := by
      rw [derivative_spherical rfl]
      change 1 / Real.cos (Real.pi / 3) = 2
      rw [Real.cos_pi_div_three]
      norm_num
    rw [← hentry]
    exact hderiv

end Real

end Mercator

end Georeferencing
