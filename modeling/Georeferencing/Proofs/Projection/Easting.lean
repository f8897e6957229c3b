import Georeferencing.Proofs.Extended
import Georeferencing.Proofs.Projection.Forward

/-! # Eastings at the poles

Strictly between the poles the easting of a point is the same at every latitude. The ordinate of
a pole is infinite, and the matrix that applies the scale multiplies it by zero on its way into the
easting, which is then not a number, unless that matrix is the identity and was dropped.
-/

namespace Georeferencing

open Elementary Extended

variable {K : Type} [Field K] [LinearOrder K]

/-- The matrix that scales both ordinates of a point of the plane and moves it. -/
def Projective.scaling (s tx ty : K) : Projective (Extended K) :=
  ⟨.small 3 isSmall_three (.of3 (finite s) 0 (finite tx) 0 (finite s) (finite ty) 0 0 1)⟩

namespace Projective

theorem image_scaling (s tx ty : K) (x y : Extended K) :
    (scaling s tx ty).image [x, y] =
      [-0 + x * finite s + y * 0 + finite tx, -0 + x * 0 + y * finite s + finite ty] := by
  have haffine : (scaling s tx ty).isAffine = true := by
    change RowMajor.isAffine 3 3
      #[finite s, (0 : Extended K), finite tx, 0, finite s, finite ty, 0, 0, 1] = true
    simp [RowMajor.isAffine, zero_eq, one_eq]
  rw [image, if_pos haffine]
  rfl

theorem image_scaling_finite (s tx ty x y : K) :
    (scaling s tx ty).image [finite x, finite y] = [finite (x * s + tx), finite (y * s + ty)] := by
  rw [image_scaling]
  simp [zero_eq]

theorem image_scaling_infinite {s : K} (h : 0 < s) (tx ty x : K) (b : Bool) :
    (scaling s tx ty).image [finite x, infinite b] = [nan, infinite b] := by
  rw [image_scaling, infinite_mul_finite b h]
  simp [zero_eq]

theorem isIdentity_scaling (s tx ty : K) :
    (scaling s tx ty).isIdentity = true ↔ s = 1 ∧ tx = 0 ∧ ty = 0 := by
  change RowMajor.isIdentity 3 3
    #[finite s, (0 : Extended K), finite tx, 0, finite s, finite ty, 0, 0, 1] = true ↔ _
  simp [RowMajor.isIdentity, RowMajor.isDiagonal, zero_eq, one_eq]
  exact fun hs _ _ => hs

end Projective

theorem ProjectionParameters.checkEllipsoid_ok {params : ProjectionParameters (Extended K)}
    (h : params.checkEllipsoid = .ok ()) :
    ∃ a : K, params.ellipsoid.semiMajor = finite a ∧ 0 < a := by
  obtain ⟨hpos, hisFinite⟩ := semiMajor_of_checkEllipsoid h
  obtain ⟨a, hfinite⟩ := eq_finite_of_isFinite hisFinite
  rw [hfinite, zero_eq, finite_lt] at hpos
  exact ⟨a, hfinite, hpos⟩

variable [Elementary (Extended K)]

theorem Transform.applyInOrder_scaling_finite (s tx ty x y : K) :
    applyInOrder (unlessIdentity (.scaling s tx ty)) [finite x, finite y] =
      .ok [finite (x * s + tx), finite (y * s + ty)] := by
  rw [unlessIdentity]
  split
  · next hid =>
    rcases (Projective.isIdentity_scaling s tx ty).mp hid with ⟨rfl, rfl, rfl⟩
    simp only [mul_one, add_zero]
    rfl
  · rw [applyInOrder_cons, applyPoint_linear rfl, Projective.image_scaling_finite]
    rfl

theorem Transform.applyInOrder_scaling_infinite {s : K} (h : 0 < s) (tx ty x : K) (b : Bool) :
    applyInOrder (unlessIdentity (.scaling s tx ty)) [finite x, infinite b] =
      .ok [if (Projective.scaling s tx ty).isIdentity then finite x else nan, infinite b] := by
  rw [unlessIdentity]
  split
  · rfl
  · rw [applyInOrder_cons, applyPoint_linear rfl, Projective.image_scaling_infinite h]
    rfl

variable {π : K}

/-- What the kernel relies on: a sine that is not zero at the poles, and logarithms that are finite
strictly between them. -/
structure Mercator.Tame (m : Mercator (Extended K)) (π : K) : Prop where
  pi_eq : pi = finite π
  pi_pos : 0 < π
  sin_north : (sin (finite (π / 2)) == 0) = false
  sin_south : (sin (finite (-(π / 2))) == 0) = false
  log_finite : ∀ φ : K, |φ| < π / 2 →
    Scalar.isFinite (log (if m.isSpherical then tan (quarterPi + 0.5 * finite φ)
      else Latitude.isometricRatio (finite φ) (m.eccentricity * sin (finite φ))
        m.eccentricity)) = true

namespace Mercator

variable [IsStrictOrderedRing K] {m : Mercator (Extended K)}

theorem Tame.halfPi_eq (h : m.Tame π) : (halfPi : Extended K) = finite (π / 2) := by
  rw [halfPi, h.pi_eq, ofScientific_eq, finite_div]
  · norm_num
  · norm_num

theorem Tame.sin_pole (h : m.Tame π) {φ : K} (hφ : |φ| = π / 2) :
    (sin (finite φ) == 0) = false := by
  rcases (abs_eq (half_pos h.pi_pos).le).mp hφ with rfl | rfl
  · exact h.sin_north
  · exact h.sin_south

theorem latitudeToOrdinate_between (h : m.Tame π) {φ : K} (hφ : |φ| < π / 2) :
    ∃ y, m.latitudeToOrdinate (finite φ) = finite y := by
  simp only [latitudeToOrdinate, abs_finite, h.halfPi_eq, finite_lt, if_pos hφ, ← apply_ite log]
  split
  · exact ⟨φ, rfl⟩
  · exact eq_finite_of_isFinite (h.log_finite φ hφ)

theorem latitudeToOrdinate_pole (h : m.Tame π) {φ : K} (hφ : |φ| = π / 2) :
    m.latitudeToOrdinate (finite φ) = infinite (decide (φ < 0)) := by
  have hlt : ¬ Scalar.abs (finite φ) < halfPi := by
    rw [abs_finite, h.halfPi_eq, finite_lt, hφ]
    exact lt_irrefl _
  have hle : Scalar.abs (finite φ) ≤ halfPi + Latitude.poleTolerance := by
    rw [abs_finite, h.halfPi_eq, Latitude.poleTolerance, ofScientific_eq, finite_add, finite_le, hφ]
    norm_num
  have hsign : finite φ < 0 ↔ φ < 0 := by
    rw [zero_eq, finite_lt]
  simp only [latitudeToOrdinate, h.sin_pole hφ, Bool.false_eq_true, if_false, if_neg hlt,
    if_pos hle, infinity_eq, hsign]
  by_cases hneg : φ < 0
  · rw [if_pos hneg, decide_eq_true hneg]
    rfl
  · rw [if_neg hneg, decide_eq_false hneg]

end Mercator

namespace ProjectionParameters

variable {params : ProjectionParameters (Extended K)}

theorem equatorFactor_ok {factor : Extended K} (h : params.equatorFactor = .ok factor) :
    ∃ k : K, factor = finite k ∧ 0 < k := by
  obtain ⟨hpos, hisFinite⟩ := pos_of_equatorFactor h
  obtain ⟨k, rfl⟩ := eq_finite_of_isFinite hisFinite
  rw [zero_eq, finite_lt] at hpos
  exact ⟨k, rfl, hpos⟩

variable [IsStrictOrderedRing K]

theorem degree_eq (hpi : (pi : Extended K) = finite π) :
    (degree : Extended K) = finite (π / 180) := by
  rw [degree, hpi, ofScientific_eq, finite_div]
  · norm_num
  · norm_num

theorem normalize_eq {cm : K} (hpi : (pi : Extended K) = finite π)
    (hcm : params.centralMeridian = finite cm) :
    params.normalize = .scaling (π / 180) (-cm * (π / 180)) 0 := by
  rw [normalize, degree_eq hpi, hcm, neg_finite, finite_mul]
  rfl

end ProjectionParameters

namespace MapProjection

variable {params : ProjectionParameters (Extended K)} {p : MapProjection (Extended K)}
  {cm fe fn : K}

/-- A point between the two matrices. -/
theorem applyInOrder_activeSteps (hn : p.normalize = .scaling (π / 180) (-cm * (π / 180)) 0)
    (lon lat : K) :
    Transform.applyInOrder p.activeSteps [finite lon, finite lat] =
      Transform.applyInOrder (Transform.unlessIdentity p.denormalize)
        [finite ((lon - cm) * (π / 180)),
          p.kernel.latitudeToOrdinate (finite (lat * (π / 180)))] := by
  rw [activeSteps, hn, Transform.applyInOrder_append, Transform.applyInOrder_scaling_finite,
    ← add_mul, ← sub_eq_add_neg, add_zero]
  exact Transform.applyInOrder_cons_ok (Transform.applyPoint_mercator _ _ _) _

/-- Where the kernel gives a finite ordinate. -/
theorem forward_finite {s lon lat y : K} (h : mercator params = .ok p)
    (hn : p.normalize = .scaling (π / 180) (-cm * (π / 180)) 0)
    (hd : p.denormalize = .scaling s fe fn)
    (hy : p.kernel.latitudeToOrdinate (finite (lat * (π / 180))) = finite y) :
    p.forward (finite lon) (finite lat) =
      .ok (finite ((lon - cm) * (π / 180) * s + fe), finite (y * s + fn)) := by
  rw [forward_eq h, applyInOrder_activeSteps hn, hd, hy, Transform.applyInOrder_scaling_finite]
  rfl

/-- Where the kernel gives an infinite ordinate. -/
theorem forward_infinite {s lon lat : K} {b : Bool} (h : mercator params = .ok p) (hs : 0 < s)
    (hn : p.normalize = .scaling (π / 180) (-cm * (π / 180)) 0)
    (hd : p.denormalize = .scaling s fe fn)
    (hy : p.kernel.latitudeToOrdinate (finite (lat * (π / 180))) = infinite b) :
    p.forward (finite lon) (finite lat) =
      .ok (if p.denormalize.isIdentity then finite ((lon - cm) * (π / 180)) else nan,
        infinite b) := by
  rw [forward_eq h, applyInOrder_activeSteps hn, hd, hy,
    Transform.applyInOrder_scaling_infinite hs]
  rfl

variable [IsStrictOrderedRing K]

/-- A projection with finite parameters scales to radians, projects, and scales to metres. -/
theorem mercator_ok_finite (h : mercator params = .ok p) (hpi : (pi : Extended K) = finite π)
    (hcm : params.centralMeridian = finite cm) (hfe : params.falseEasting = finite fe)
    (hfn : params.falseNorthing = finite fn) :
    ∃ s : K, 0 < s ∧ p.normalize = .scaling (π / 180) (-cm * (π / 180)) 0 ∧
      p.denormalize = .scaling s fe fn := by
  rcases mercator_ok h with ⟨factor, hcheck, hfactor, -, hn, hd, -⟩
  rcases ProjectionParameters.checkEllipsoid_ok hcheck with ⟨a, ha, hapos⟩
  rcases ProjectionParameters.equatorFactor_ok hfactor with ⟨k, rfl, hkpos⟩
  have hscaling : params.denormalize (finite k) = .scaling (a * k) fe fn := by
    rw [ProjectionParameters.denormalize, ha, hfe, hfn]
    rfl
  exact ⟨a * k, mul_pos hapos hkpos, hn.trans (ProjectionParameters.normalize_eq hpi hcm),
    hd.trans hscaling⟩

/-- Strictly between the poles the easting is that of the equator. At a pole the northing is
infinite with the sign of the latitude, and the easting is not a number unless the last matrix is
the identity. -/
theorem forward_easting (h : mercator params = .ok p) (hkernel : p.kernel.Tame π)
    (hcm : params.centralMeridian = finite cm) (hfe : params.falseEasting = finite fe)
    (hfn : params.falseNorthing = finite fn) (lon : K) :
    ∃ easting : K,
      (∃ y, p.forward (finite lon) (finite 0) = .ok (finite easting, finite y)) ∧
      ∀ lat : K,
        (|lat| < 90 → ∃ y, p.forward (finite lon) (finite lat) = .ok (finite easting, finite y)) ∧
        (|lat| = 90 → p.forward (finite lon) (finite lat) =
          .ok (if p.denormalize.isIdentity then finite easting else nan,
            infinite (decide (lat < 0)))) := by
  rcases mercator_ok_finite h hkernel.pi_eq hcm hfe hfn with ⟨s, hs, hn, hd⟩
  have hturn : 0 < π / 180 := div_pos hkernel.pi_pos (by norm_num)
  have hquarter : 90 * (π / 180) = π / 2 := by ring
  have hbetween : ∀ lat : K, |lat| < 90 →
      ∃ y, p.forward (finite lon) (finite lat) =
        .ok (finite ((lon - cm) * (π / 180) * s + fe), finite y) := by
    intro lat hlat
    have hφ : |lat * (π / 180)| < π / 2 := by
      rw [abs_mul, abs_of_pos hturn, ← hquarter]
      exact mul_lt_mul_of_pos_right hlat hturn
    rcases Mercator.latitudeToOrdinate_between hkernel hφ with ⟨y, hy⟩
    exact ⟨_, forward_finite h hn hd hy⟩
  refine ⟨(lon - cm) * (π / 180) * s + fe, hbetween 0 (by norm_num), fun lat => ?_⟩
  constructor
  · exact hbetween lat
  intro hlat
  have hφ : |lat * (π / 180)| = π / 2 := by
    rw [abs_mul, abs_of_pos hturn, hlat, hquarter]
  have hy := Mercator.latitudeToOrdinate_pole hkernel hφ
  have hsign : lat * (π / 180) < 0 ↔ lat < 0 := by
    rw [mul_neg_iff]
    simp [hturn, hturn.not_gt]
  rw [forward_infinite h hs hn hd hy]
  simp only [hsign]
  split
  · next hid =>
    rw [hd] at hid
    rcases (Projective.isIdentity_scaling s fe fn).mp hid with ⟨rfl, rfl, rfl⟩
    rw [mul_one, add_zero]
  · rfl

/-- On a sphere, the meridian of 180 degrees at the north pole and at the equator. -/
theorem forward_easting_sphere :
    letI : Elementary (Extended ℚ) := Extended.elementary Exact.quarterTurns
    let params : ProjectionParameters (Extended ℚ) :=
      { ellipsoid := .sphere (finite 6378137)
        variant := .equatorScale
        centralMeridian := finite 0
        scaleFactor := finite 1
        standardParallel := finite 0
        falseEasting := finite 0
        falseNorthing := finite 0 }
    ∃ p, mercator params = .ok p ∧
      (∃ easting y, p.forward (finite 180) (finite 0) = .ok (finite easting, finite y)) ∧
      p.forward (finite 180) (finite 90) = .ok (nan, infinite false) := by
  let _ : Elementary (Extended ℚ) := Extended.elementary Exact.quarterTurns
  intro params
  have hok : (mercator params).isOk = true := by decide +kernel
  cases h : mercator params with
  | error e =>
    rw [h] at hok
    cases hok
  | ok p =>
    rcases mercator_ok h with ⟨factor, -, hfactor, hkernel, -, hd, -⟩
    have hsphere : p.kernel = ⟨finite 0, finite 0, .spherical⟩ := by
      rw [hkernel]
      decide +kernel
    have hquarter : (quarterPi : Extended ℚ) = finite (11 / 14) := by decide +kernel
    have htame : p.kernel.Tame (22 / 7) := by
      rw [hsphere]
      refine ⟨rfl, by norm_num, by decide +kernel, by decide +kernel, fun φ _ => ?_⟩
      rw [hquarter]
      exact isFinite_finite _
    have hid : p.denormalize.isIdentity = false := by
      have hone : params.equatorFactor = .ok (finite 1) := by decide +kernel
      rw [hone] at hfactor
      cases hfactor
      rw [hd]
      decide +kernel
    rcases forward_easting h htame rfl rfl rfl 180 with ⟨easting, ⟨y, hequator⟩, hlat⟩
    refine ⟨p, rfl, ⟨easting, y, hequator⟩, ?_⟩
    rw [(hlat 90).2 (by norm_num), hid]
    rfl

end MapProjection

end Georeferencing
