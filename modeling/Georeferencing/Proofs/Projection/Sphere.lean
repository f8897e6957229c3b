import Georeferencing.Proofs.Double.Comparison
import Georeferencing.Proofs.Projection.Jacobian
import Georeferencing.Proofs.Projection.Parameters

/-! # Ellipsoidal formulas on a sphere

On a sphere the ellipsoidal formulas give the same doubles as the spherical ones, whatever the
latitude or the ordinate is. The eccentricity is a zero of either sign, so that the departure from a
sphere is one, and the iteration for a latitude settles on its first estimate, unless that is not a
number, which settles too.
-/

namespace Georeferencing

open Elementary

namespace Double

/-- What is documented of the functions of analysis on doubles, and relied on here: a sine of a
finite number is finite, an arc tangent is at most a quarter turn, and one to the power of zero is
one. -/
structure Documented [Elementary Float] : Prop where
  pi_eq : (pi : Float) = 3.141592653589793
  sqrt_zero : ∀ x : Float, IsZero x → IsZero (sqrt x)
  sin_finite : ∀ x : Float, Scalar.isFinite x = true → Scalar.isFinite (sin x) = true
  atan_le : ∀ x : Float, Scalar.isNaN x = false → Scalar.abs (atan x) ≤ halfPi
  atan_nan : ∀ x : Float, Scalar.isNaN x = true → Scalar.isNaN (atan x) = true
  pow_one : ∀ y : Float, IsZero y → pow 1 y = 1

theorem value_two : value 2.0 = some ((2 : ℝ) : EReal) := by
  have hword : value 2.0 = some (((2 ^ 52 : ℕ) * 2 ^ (-51 : ℤ) : ℝ) : EReal) := rfl
  rw [hword]
  norm_num

variable [Elementary Float] (h : Documented) {x : Float}
include h

theorem Documented.exists_value_halfPi :
    ∃ p : ℝ, value (halfPi : Float) = some (p : EReal) ∧ p ≤ 2 := by
  have hfinite : Scalar.isFinite (halfPi : Float) = true := by
    rw [halfPi, h.pi_eq]
    decide +kernel
  have hle : (halfPi : Float) ≤ 2.0 := by
    rw [halfPi, h.pi_eq]
    decide +kernel
  obtain ⟨p, hp⟩ := isFinite_iff_exists_value.mp hfinite
  rw [le_iff_value hp value_two, EReal.coe_le_coe_iff] at hle
  exact ⟨p, hp, hle⟩

/-- The latitude on a sphere is a finite number for every ratio that is a number. -/
theorem Documented.isFinite_sphericalOfRatio (hx : Scalar.isNaN x = false) :
    Scalar.isFinite (Latitude.sphericalOfRatio x) = true := by
  obtain ⟨p, hp, hp2⟩ := h.exists_value_halfPi
  obtain ⟨_, _, hsize, hp', hle⟩ := le_iff_exists_value.mp (h.atan_le x hx)
  cases Option.some.inj (hp.symm.trans hp')
  rw [value_abs, Option.map_eq_some_iff] at hsize
  obtain ⟨r, hr, rfl⟩ := hsize
  obtain ⟨t, rfl⟩ : ∃ t : ℝ, r = t := by
    induction r with
    | bot => exact absurd hle (not_le.mpr (EReal.coe_lt_top p))
    | coe t => exact ⟨t, rfl⟩
    | top => exact absurd hle (not_le.mpr (EReal.coe_lt_top p))
  rw [size_coe, EReal.coe_le_coe_iff] at hle
  -- neither twice the arc tangent nor the difference is too large
  have htwice : |2 * t| ≤ 2 ^ (2 : ℤ) := by
    rw [abs_mul, abs_two]
    norm_num
    linarith
  obtain ⟨u, hu, hu4⟩ := exists_nearestDouble (by norm_num) (by norm_num) htwice
  have hdifference : |p - u| ≤ 2 ^ (3 : ℤ) := by
    have hp0 : |p| ≤ 2 := abs_le.mpr ⟨by linarith [abs_nonneg t], hp2⟩
    refine (abs_sub p u).trans ((add_le_add hp0 hu4).trans ?_)
    norm_num
  obtain ⟨v, hv, -⟩ := exists_nearestDouble (by norm_num) (by norm_num) hdifference
  refine isFinite_iff_exists_value.mpr ⟨v, ?_⟩
  rw [Latitude.sphericalOfRatio, value_sub hp (hu ▸ value_mul value_two hr), hv]

end Double

open Double

namespace Latitude

variable [Elementary Float] (h : Documented) {s e ts x : Float} {count : ℕ}
include h

/-- A sphere does not depart from a sphere, whatever the sign of its eccentricity. -/
theorem departure_of_isZero (hs : IsZero s) (he : IsZero e) : departure s e = 1 := by
  have hhalf : IsZero (0.5 * e) := by
    rw [Double.mul_comm]
    exact he.mul (by decide +kernel)
  have hone : (1 / 1 : Float) = 1 := by
    rw [← unpacked_inj]
    rfl
  change pow ((1 - s) / (1 + s)) (0.5 * e) = 1
  rw [hs.one_sub, hs.one_add, hone, h.pow_one _ hhalf]

/-- On a sphere the step gives the latitude at once. -/
theorem refine_of_isZero (he : IsZero e) (hx : Scalar.isFinite x = true) :
    refine ts e x = sphericalOfRatio ts := by
  have hsin : IsZero (e * sin x) := he.mul (h.sin_finite x hx)
  rw [refine, departure_of_isZero h hsin he, Double.mul_one]

theorem isNaN_sphericalOfRatio (hts : Scalar.isNaN ts = true) :
    Scalar.isNaN (sphericalOfRatio ts) = true :=
  isNaN_sub (.inr (isNaN_mul (.inr (h.atan_nan ts hts))))

theorem isNaN_refine (hts : Scalar.isNaN ts = true) (e x : Float) :
    Scalar.isNaN (refine ts e x) = true :=
  isNaN_sphericalOfRatio h (isNaN_mul (.inl hts))

/-- On a sphere the iteration ends after its first step. -/
theorem ofRatio_of_isZero (he : IsZero e) (ts : Float) :
    ofRatio ts e = .ok (sphericalOfRatio ts) := by
  rw [ofRatio, maximumIterations, settle]
  cases hts : Scalar.isNaN ts with
  | true =>
    have hnext := isNaN_refine h hts e (sphericalOfRatio ts)
    rw [if_neg (not_lt_abs_of_isNaN (isNaN_sub (.inl hnext))),
      eq_of_isNaN hnext (isNaN_sphericalOfRatio h hts)]
  | false =>
    have hfinite := h.isFinite_sphericalOfRatio hts
    have htolerance : (0 : Float) ≤ iterationTolerance := by decide +kernel
    rw [refine_of_isZero h he hfinite,
      if_neg (not_lt_abs_of_isZero (isZero_sub_self hfinite) htolerance)]

end Latitude

namespace Mercator

/-- The same ordinates, and the same latitudes, which are always found. -/
structure Agrees {α : Type} [Scalar α] [Elementary α] (m m' : Mercator α) : Prop where
  ordinates : ∀ φ, m.latitudeToOrdinate φ = m'.latitudeToOrdinate φ
  latitudes : ∀ y, ∃ φ, m.ordinateToLatitude y = .ok φ ∧ m'.ordinateToLatitude y = .ok φ

section Doubles

variable [Elementary Float] (h : Documented) {m m' : Mercator Float}
include h

/-- Ellipsoidal formulas with a zero eccentricity and spherical formulas. -/
theorem agrees_of_isZero (hm : m.isSpherical = false) (he : IsZero m.eccentricity)
    (hm' : m'.isSpherical = true) : m.Agrees m' where
  ordinates φ := by
    simp only [latitudeToOrdinate, hm, hm', if_true, Bool.false_eq_true, if_false]
    split
    · rfl
    · split
      · next hinside =>
        have hsin := he.mul (h.sin_finite φ (isFinite_of_abs_lt hinside))
        rw [Latitude.isometricRatio, Latitude.departure_of_isZero h hsin he, Double.mul_one]
      · rfl
  latitudes y := by
    refine ⟨Latitude.sphericalOfRatio (exp (-y)), ?_, ordinateToLatitude_of_isSpherical hm' y⟩
    rw [ordinateToLatitude, hm, if_neg Bool.false_ne_true, Latitude.ofRatio_of_isZero h he]

end Doubles

end Mercator

namespace Ellipsoid

/-- The square of the eccentricity of a sphere is a zero, of either sign. -/
theorem isZero_eccentricitySquared {s : Ellipsoid Float} (hs : s.WellFormed)
    (hsphere : s.isSphere = true) : IsZero s.eccentricitySquared := by
  have hflat : IsZero s.flattening := isZero_of_beq hsphere
  have htwice : IsZero (2.0 * s.flattening) := by
    rw [Double.mul_comm]
    exact hflat.mul (by decide +kernel)
  rw [hs]
  exact htwice.sub (hflat.mul hflat.isFinite)

variable {K : Type} [Field K] [LinearOrder K]

theorem eccentricitySquared_eq_zero {s : Ellipsoid K} (hs : s.WellFormed)
    (hsphere : s.isSphere = true) : s.eccentricitySquared = 0 := by
  have hflat : s.flattening = 0 := beq_iff_eq.mp hsphere
  have hsquared : s.eccentricitySquared = 2.0 * s.flattening - s.flattening * s.flattening :=
    congrArg eccentricitySquared hs
  rw [hsquared, hflat, mul_zero, mul_zero, sub_zero]

end Ellipsoid

namespace Mercator

/-- On a sphere the spherical formulas are chosen. -/
theorem isSpherical_ofEllipsoid {α : Type} [Scalar α] [Elementary α] {s : Ellipsoid α}
    (h : (s.eccentricitySquared == 0) = true) : (ofEllipsoid s).isSpherical = true := by
  rw [ofEllipsoid, if_pos h]
  rfl

variable {K : Type} [Field K] [LinearOrder K] [IsStrictOrderedRing K] [Elementary K]

theorem derivative_sphere {m : Mercator K} {φ : K} (hm : m.isSpherical = false)
    (he : m.eccentricitySquared = 0) (hcircle : sin φ ^ 2 + cos φ ^ 2 = 1) (hcos : cos φ ≠ 0) :
    m.derivative φ = .of2 1 0 0 (1 / cos φ) := by
  rw [derivative_ellipsoidal hm hcircle hcos, he, zero_mul, zero_div, sub_zero]

/-- On a sphere the ellipsoidal formulas give every ordinate and every latitude as the spherical
ones do, to the last bit and without a failure, also where there is no number. Over exact numbers
the derivatives are the same as well, wherever the cosine does not vanish. -/
theorem ellipsoidal_on_sphere [Elementary Float] (h : Documented)
    (hcircle : ∀ x : K, sin x ^ 2 + cos x ^ 2 = 1) :
    (∀ s : Ellipsoid Float, s.WellFormed → s.isSphere = true →
      (ellipsoidal s).Agrees (ofEllipsoid s) ∧ (ellipsoidal s).Agrees pseudo) ∧
    ∀ s : Ellipsoid K, s.WellFormed → s.isSphere = true → ∀ φ, cos φ ≠ 0 →
      (ellipsoidal s).derivative φ = (ofEllipsoid s).derivative φ ∧
        (ellipsoidal s).derivative φ = pseudo.derivative φ := by
  constructor
  · intro s hs hsphere
    have hzero := Ellipsoid.isZero_eccentricitySquared hs hsphere
    have heccentricity : IsZero (ellipsoidal s).eccentricity := h.sqrt_zero _ hzero
    constructor
    · exact agrees_of_isZero h rfl heccentricity (isSpherical_ofEllipsoid hzero.beq_zero)
    · exact agrees_of_isZero h rfl heccentricity rfl
  · intro s hs hsphere φ hcos
    have hzero := Ellipsoid.eccentricitySquared_eq_zero hs hsphere
    rw [derivative_sphere rfl hzero (hcircle φ) hcos,
      derivative_spherical (isSpherical_ofEllipsoid (beq_iff_eq.mpr hzero)),
      derivative_spherical (rfl : (pseudo : Mercator K).isSpherical = true)]
    exact ⟨rfl, rfl⟩

end Mercator

/-- Elementary functions of doubles that are right at zeros, at quarter turns, and where an argument
is infinite or not a number. -/
@[reducible]
def Double.quarterTurns : Elementary Float where
  pi := 3.141592653589793
  sqrt x := x
  hypot x y := Scalar.max (Scalar.abs x) (Scalar.abs y)
  sin x :=
    if Scalar.isFinite x then (if x == 0 then x else if x < 0 then -1 else 1) else Scalar.nan
  cos x := if Scalar.isFinite x then (if x == 0 then 1 else 0) else Scalar.nan
  tan x := x
  atan x :=
    if Scalar.isNaN x then x else if x == 0 then 0
    else if x < 0 then -(3.141592653589793 / 2.0) else 3.141592653589793 / 2.0
  exp x :=
    if Scalar.isNaN x then x else if x == 0 then 1
    else if x < 0 then 0 else Scalar.infinity
  log x := if x == 1 then 0 else x
  pow x y := if y == 0 then 1 else x

theorem Double.documented_quarterTurns : @Documented quarterTurns := by
  let _ : Elementary Float := quarterTurns
  exact
    { pi_eq := rfl
      sqrt_zero := fun x hx => hx
      sin_finite := by
        intro x hx
        change Scalar.isFinite (if Scalar.isFinite x then _ else _) = true
        rw [if_pos hx]
        split
        · exact hx
        · split <;> decide +kernel
      atan_le := by
        intro x hx
        change Scalar.abs (if Scalar.isNaN x then _ else _) ≤ _
        rw [hx, if_neg Bool.false_ne_true]
        split
        · decide +kernel
        · split <;> decide +kernel
      atan_nan := by
        intro x hx
        change Scalar.isNaN (if Scalar.isNaN x then x else _) = true
        rwa [if_pos hx]
      pow_one := by
        intro y hy
        exact if_pos hy.beq_zero }

/-- A sphere whose flattening is a negative zero: its north pole, the infinite ordinate, and what is
not a number. Over the real numbers, the derivative at 60 degrees. -/
theorem Mercator.ellipsoidal_on_sphere_poles :
    letI : Elementary Float := Double.quarterTurns
    let m : Mercator Float := .ellipsoidal (.ofFlattening 6371000.0 (-0.0))
    let web : Mercator Float := .pseudo
    (m.latitudeToOrdinate halfPi = web.latitudeToOrdinate halfPi ∧
      m.latitudeToOrdinate Scalar.nan = web.latitudeToOrdinate Scalar.nan) ∧
    (∃ φ, m.ordinateToLatitude Scalar.infinity = .ok φ ∧
      web.ordinateToLatitude Scalar.infinity = .ok φ) ∧
    (∃ φ, m.ordinateToLatitude Scalar.nan = .ok φ ∧ web.ordinateToLatitude Scalar.nan = .ok φ) ∧
    (ellipsoidal (.sphere 6371000) : Mercator ℝ).derivative (Real.pi / 3) =
      pseudo.derivative (Real.pi / 3) := by
  let _ : Elementary Float := Double.quarterTurns
  intro m web
  obtain ⟨hdoubles, hreal⟩ :=
    ellipsoidal_on_sphere Double.documented_quarterTurns Real.sin_sq_add_cos_sq
  obtain ⟨-, hagrees⟩ := hdoubles (.ofFlattening 6371000.0 (-0.0)) rfl (by decide +kernel)
  refine ⟨⟨hagrees.ordinates _, hagrees.ordinates _⟩, hagrees.latitudes _, hagrees.latitudes _, ?_⟩
  have hcos : cos (Real.pi / 3) ≠ 0 := by
    change Real.cos (Real.pi / 3) ≠ 0
    rw [Real.cos_pi_div_three]
    norm_num
  exact (hreal (.sphere 6371000) rfl (beq_iff_eq.mpr rfl) _ hcos).2

end Georeferencing
