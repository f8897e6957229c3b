import Georeferencing.Proofs.Projection.Easting
import Georeferencing.Proofs.Projection.RoundTrip

/-! # Accepted parameters

A projection is made exactly if its ellipsoid and its scale factor make sense, and nothing else can
go wrong: the three steps always fit together. The factor that follows from a standard parallel
needs no test of its own, as long as the squared eccentricity is what the flattening says: at most
one, so that the radius of the parallel is the cosine of the latitude over something that is not
smaller. Nothing compares the two, and with a larger number the factor may be anything.
-/

namespace Georeferencing

open Elementary Extended

/-! ## What is at fault -/

section Faults

variable {α : Type} [Scalar α] [Elementary α] {params : ProjectionParameters α}
  {e : TransformError α}

/-- The tests that parameters can fail, with what is reported. -/
inductive ProjectionParameters.Faults (params : ProjectionParameters α) :
    ParameterFault α → Prop where
  | semiMajorAxis : Faults params (.semiMajorAxis params.ellipsoid.semiMajor)
  | flattening : Faults params (.flattening params.ellipsoid.flattening)
  | standardParallel (h : params.variant = .parallelScale) :
    Faults params (.standardParallel params.standardParallel)
  | scaleFactor {factor : α} (h : params.givenFactor = .ok factor) :
    Faults params (.scaleFactor factor)

namespace ProjectionParameters

theorem checkEllipsoid_error (h : params.checkEllipsoid = .error e) :
    ∃ fault, params.Faults fault ∧ e = .invalidParameter fault := by
  simp only [checkEllipsoid] at h
  split at h
  · split at h
    · cases h
    · cases h
      exact ⟨_, .flattening, rfl⟩
  · cases h
    exact ⟨_, .semiMajorAxis, rfl⟩

theorem givenFactor_error (h : params.givenFactor = .error e) :
    ∃ fault, params.Faults fault ∧ e = .invalidParameter fault := by
  unfold givenFactor at h
  split at h
  · next hvariant =>
    split at h
    · cases h
    · cases h
      exact ⟨_, .standardParallel hvariant, rfl⟩
  · cases h
  · cases h

theorem equatorFactor_error (h : params.equatorFactor = .error e) :
    ∃ fault, params.Faults fault ∧ e = .invalidParameter fault := by
  rcases bind_eq_error.mp h with hgiven | ⟨factor, hgiven, h⟩
  · exact givenFactor_error hgiven
  · split at h
    · cases h
    · cases h
      exact ⟨_, .scaleFactor hgiven, rfl⟩

theorem equatorFactor_eq_ok_iff {factor : α} : params.equatorFactor = .ok factor ↔
    params.givenFactor = .ok factor ∧ 0 < factor ∧ Scalar.isFinite factor = true := by
  rw [equatorFactor, bind_eq_ok]
  constructor
  · rintro ⟨given, hgiven, h⟩
    split at h
    · next hfactor =>
      cases h
      exact ⟨hgiven, hfactor⟩
    · cases h
  · rintro ⟨hgiven, hfactor⟩
    exact ⟨factor, hgiven, if_pos hfactor⟩

end ProjectionParameters

namespace MapProjection

theorem exists_mercator_iff : (∃ p, mercator params = .ok p) ↔
    params.checkEllipsoid = .ok () ∧ ∃ factor, params.equatorFactor = .ok factor := by
  constructor
  · rintro ⟨p, hp⟩
    obtain ⟨factor, hcheck, hfactor, -⟩ := mercator_ok hp
    exact ⟨hcheck, factor, hfactor⟩
  · rintro ⟨hcheck, factor, hfactor⟩
    exact exists_mercator hcheck hfactor

/-- The steps are always concatenated, so that only the parameters are at fault. -/
theorem mercator_error (h : mercator params = .error e) :
    ∃ fault, params.Faults fault ∧ e = .invalidParameter fault := by
  cases hcheck : params.checkEllipsoid with
  | error e' =>
    rw [mercator, hcheck] at h
    cases h
    exact ProjectionParameters.checkEllipsoid_error hcheck
  | ok _ =>
    cases hfactor : params.equatorFactor with
    | error e' =>
      rw [mercator, hcheck, hfactor] at h
      cases h
      exact ProjectionParameters.equatorFactor_error hfactor
    | ok factor =>
      obtain ⟨p, hp⟩ := exists_mercator hcheck hfactor
      rw [hp] at h
      cases h

end MapProjection

end Faults

/-- The derived numbers are those of the axis and the flattening, as for whatever makes an
ellipsoid. -/
def Ellipsoid.WellFormed {α : Type} [Scalar α] (e : Ellipsoid α) : Prop :=
  e = .ofFlattening e.semiMajor e.flattening

theorem Ellipsoid.wellFormed_ofFlattening {α : Type} [Scalar α] (a f : α) :
    (ofFlattening a f).WellFormed := rfl

/-! ## Numbers with special values -/

variable {K : Type} [Field K] [LinearOrder K] {π : K}

/-- The axis is positive and finite, and the flattening from zero to below one. -/
structure Ellipsoid.Accepted (e : Ellipsoid (Extended K)) : Prop where
  semiMajor : ∃ a, e.semiMajor = finite a ∧ 0 < a
  flattening : ∃ f, e.flattening = finite f ∧ 0 ≤ f ∧ f < 1

/-- The squared eccentricity is a number and at most one. Only a factor that follows from a standard
parallel depends on it. -/
def Ellipsoid.HasEccentricity (e : Ellipsoid (Extended K)) : Prop :=
  ∃ x, e.eccentricitySquared = finite x ∧ x ≤ 1

/-- The standard parallel is strictly between the poles, or the scale factor, where it is given,
positive and finite. -/
def ProjectionParameters.AcceptedScale (params : ProjectionParameters (Extended K)) : Prop :=
  match params.variant with
  | .parallelScale => ∃ φ, params.standardParallel = finite φ ∧ |φ| < 90
  | .equatorScale | .pseudo => ∃ k, params.scaleFactor = finite k ∧ 0 < k

namespace Extended

variable {x : Extended K}

theorem pos_and_isFinite_iff :
    0 < x ∧ Scalar.isFinite x = true ↔ ∃ a, x = finite a ∧ 0 < a := by
  constructor
  · rintro ⟨hpos, hfinite⟩
    obtain ⟨a, rfl⟩ := eq_finite_of_isFinite hfinite
    rw [zero_eq, finite_lt] at hpos
    exact ⟨a, rfl, hpos⟩
  · rintro ⟨a, rfl, hpos⟩
    rw [zero_eq, finite_lt]
    exact ⟨hpos, isFinite_finite a⟩

theorem nonneg_and_lt_one_iff : 0 ≤ x ∧ x < 1 ↔ ∃ f, x = finite f ∧ 0 ≤ f ∧ f < 1 := by
  constructor
  · rintro ⟨hnonneg, hlt⟩
    cases x with
    | finite f =>
      rw [zero_eq, finite_le] at hnonneg
      rw [one_eq, finite_lt] at hlt
      exact ⟨f, rfl, hnonneg, hlt⟩
    | infinite s => cases s <;> contradiction
    | nan => cases hlt
  · rintro ⟨f, rfl, hnonneg, hlt⟩
    rw [zero_eq, finite_le, one_eq, finite_lt]
    exact ⟨hnonneg, hlt⟩

theorem abs_lt_ninety_iff [IsStrictOrderedRing K] :
    Scalar.abs x < 90.0 ↔ ∃ φ, x = finite φ ∧ |φ| < 90 := by
  have hninety : (90.0 : Extended K) = finite 90 := by
    rw [ofScientific_eq]
    norm_num
  rw [hninety]
  constructor
  · intro h
    cases x with
    | finite φ =>
      rw [abs_finite, finite_lt] at h
      exact ⟨φ, rfl, h⟩
    | infinite s => cases s <;> cases h
    | nan => cases h
  · rintro ⟨φ, rfl, h⟩
    rwa [abs_finite, finite_lt]

/-- What is relied on of the functions of analysis: a sine and a cosine on the unit circle, the
latter positive within a quarter turn, and square roots. -/
structure Trigonometric [Elementary (Extended K)] (π : K) : Prop where
  pi_eq : pi = finite π
  pi_pos : 0 < π
  circle : ∀ x : K, ∃ s c, sin (finite x) = finite s ∧ cos (finite x) = finite c ∧
    s ^ 2 + c ^ 2 = 1 ∧ (|x| < π / 2 → 0 < c)
  sqrt : ∀ x : K, 0 ≤ x → ∃ r, sqrt (finite x) = finite r ∧ 0 ≤ r ∧ r ^ 2 = x

end Extended

variable [IsStrictOrderedRing K] [Elementary (Extended K)]

omit [Elementary (Extended K)] in
/-- The squared eccentricity of an accepted flattening is one minus a square. -/
theorem Ellipsoid.WellFormed.hasEccentricity {e : Ellipsoid (Extended K)} (he : e.WellFormed)
    (haccepted : e.Accepted) : e.HasEccentricity := by
  obtain ⟨f, hf, -⟩ := haccepted.flattening
  refine ⟨1 - (1 - f) ^ 2, ?_, sub_le_self 1 (sq_nonneg (1 - f))⟩
  rw [he, ofFlattening, hf]
  change (2.0 * finite f - finite f * finite f : Extended K) = _
  rw [ofScientific_eq, finite_mul, finite_mul, finite_sub]
  congr 1
  norm_num
  ring

/-- The radius of a parallel strictly between the poles, relative to the equator. -/
theorem Latitude.parallelRadius_between (h : Trigonometric π) {φ x : K} (hφ : |φ| < π / 2)
    (hx : x ≤ 1) : ∃ k, parallelRadius (finite φ) (finite x) = finite k ∧ 0 < k ∧ k ≤ 1 := by
  obtain ⟨s, c, hsin, hcos, hcircle, hpos⟩ := h.circle φ
  have hc : 0 < c := hpos hφ
  -- what is under the root is the square of the cosine and a multiple of that of the sine
  have hunder : c ^ 2 ≤ 1 - x * s * s := by
    have hmultiple : 0 ≤ (1 - x) * s ^ 2 := mul_nonneg (sub_nonneg.mpr hx) (sq_nonneg s)
    linear_combination hmultiple + hcircle
  obtain ⟨r, hr, hrnonneg, hrsquare⟩ := h.sqrt _ ((sq_nonneg c).trans hunder)
  have hle : c ≤ r := (sq_le_sq₀ hc.le hrnonneg).mp (hrsquare ▸ hunder)
  have hrpos : 0 < r := hc.trans_le hle
  refine ⟨c / r, ?_, div_pos hc hrpos, (div_le_one hrpos).mpr hle⟩
  rw [parallelRadius]
  simp only [hsin, hcos, finite_mul, one_eq, finite_sub, hr]
  exact finite_div c hrpos.ne'

namespace ProjectionParameters

variable {params : ProjectionParameters (Extended K)}

omit [IsStrictOrderedRing K] [Elementary (Extended K)] in
theorem checkEllipsoid_eq_ok_iff :
    params.checkEllipsoid = .ok () ↔ params.ellipsoid.Accepted := by
  constructor
  · intro h
    simp only [checkEllipsoid] at h
    split at h
    · next ha =>
      split at h
      · next hf => exact ⟨pos_and_isFinite_iff.mp ha, nonneg_and_lt_one_iff.mp hf⟩
      · cases h
    · cases h
  · rintro ⟨ha, hf⟩
    simp only [checkEllipsoid, if_pos (pos_and_isFinite_iff.mpr ha),
      if_pos (nonneg_and_lt_one_iff.mpr hf)]

omit [IsStrictOrderedRing K] in
theorem exists_equatorFactor_iff : (∃ factor, params.equatorFactor = .ok factor) ↔
    ∃ k, params.givenFactor = .ok (finite k) ∧ 0 < k := by
  simp only [equatorFactor_eq_ok_iff, pos_and_isFinite_iff]
  constructor
  · rintro ⟨_, hgiven, k, rfl, hk⟩
    exact ⟨k, hgiven, hk⟩
  · rintro ⟨k, hgiven, hk⟩
    exact ⟨_, hgiven, k, rfl, hk⟩

/-- The factor that a standard parallel gives. -/
theorem givenFactor_between (h : Trigonometric π) (he : params.ellipsoid.HasEccentricity)
    (hvariant : params.variant = .parallelScale) {φ : K}
    (hφ : params.standardParallel = finite φ) (hlt : |φ| < 90) :
    ∃ k, params.givenFactor = .ok (finite k) ∧ 0 < k ∧ k ≤ 1 := by
  obtain ⟨x, hx, hle⟩ := he
  have hturn : 0 < π / 180 := div_pos h.pi_pos (by norm_num)
  have hinside : |φ * (π / 180)| < π / 2 := by
    have hquarter : 90 * (π / 180) = π / 2 := by ring
    rw [abs_mul, abs_of_pos hturn, ← hquarter]
    exact mul_lt_mul_of_pos_right hlt hturn
  obtain ⟨k, hk, hpos, hone⟩ := Latitude.parallelRadius_between h hinside hle
  have hradians : toRadians (finite φ) = finite (φ * (π / 180)) := by
    rw [toRadians, degree_eq h.pi_eq, finite_mul]
  have htest : Scalar.abs (finite φ) < 90.0 := abs_lt_ninety_iff.mpr ⟨φ, rfl, hlt⟩
  refine ⟨k, ?_, hpos, hone⟩
  rw [givenFactor, hvariant, hφ]
  simp only [if_pos htest, hradians, hx, hk]

/-- A scale factor that passes its test is accepted. -/
theorem acceptedScale_of_givenFactor {k : K} (hgiven : params.givenFactor = .ok (finite k))
    (hk : 0 < k) : params.AcceptedScale := by
  rw [AcceptedScale]
  cases hvariant : params.variant with
  | parallelScale =>
    rw [givenFactor, hvariant] at hgiven
    by_cases htest : Scalar.abs params.standardParallel < 90.0
    · exact abs_lt_ninety_iff.mp htest
    · simp only [if_neg htest] at hgiven
      cases hgiven
  | equatorScale | pseudo =>
    rw [givenFactor, hvariant] at hgiven
    exact ⟨k, Except.ok.inj hgiven, hk⟩

/-- One that is accepted passes its test; one that follows from a standard parallel always does. -/
theorem exists_givenFactor (h : Trigonometric π)
    (he : params.variant = .parallelScale → params.ellipsoid.HasEccentricity)
    (haccepted : params.AcceptedScale) : ∃ k, params.givenFactor = .ok (finite k) ∧ 0 < k := by
  rw [AcceptedScale] at haccepted
  cases hvariant : params.variant with
  | parallelScale =>
    rw [hvariant] at haccepted
    obtain ⟨φ, hφ, hlt⟩ := haccepted
    obtain ⟨k, hgiven, hpos, -⟩ := givenFactor_between h (he hvariant) hvariant hφ hlt
    exact ⟨k, hgiven, hpos⟩
  | equatorScale | pseudo =>
    rw [hvariant] at haccepted
    obtain ⟨k, hk, hpos⟩ := haccepted
    refine ⟨k, ?_, hpos⟩
    rw [givenFactor, hvariant, ← hk]

end ProjectionParameters

namespace MapProjection

variable {params : ProjectionParameters (Extended K)}

/-- A projection is made of accepted parameters only. -/
theorem accepted_of_mercator (hp : ∃ p, mercator params = .ok p) :
    params.ellipsoid.Accepted ∧ params.AcceptedScale := by
  rw [exists_mercator_iff, ProjectionParameters.checkEllipsoid_eq_ok_iff,
    ProjectionParameters.exists_equatorFactor_iff] at hp
  obtain ⟨haccepted, k, hgiven, hk⟩ := hp
  exact ⟨haccepted, ProjectionParameters.acceptedScale_of_givenFactor hgiven hk⟩

theorem exists_mercator_of_accepted (h : Trigonometric π)
    (he : params.variant = .parallelScale → params.ellipsoid.HasEccentricity)
    (haccepted : params.ellipsoid.Accepted) (hscale : params.AcceptedScale) :
    ∃ p, mercator params = .ok p := by
  rw [exists_mercator_iff, ProjectionParameters.checkEllipsoid_eq_ok_iff,
    ProjectionParameters.exists_equatorFactor_iff]
  exact ⟨haccepted, ProjectionParameters.exists_givenFactor h he hscale⟩

/-- Which parameters make a projection. Only those that are accepted do, and all of them, if the
ellipsoid of one that is scaled at a standard parallel has got an eccentricity. The factor that the
standard parallel gives is then positive and at most one, so that its test never fails. An ellipsoid
that is made from its flattening has one. Whatever is not accepted is reported as one of the
parameters, never as a matrix or a dimension. -/
theorem mercator_accepts (h : Trigonometric π) (params : ProjectionParameters (Extended K)) :
    ((∃ p, mercator params = .ok p) → params.ellipsoid.Accepted ∧ params.AcceptedScale) ∧
    ((params.variant = .parallelScale → params.ellipsoid.Accepted →
        params.ellipsoid.HasEccentricity) →
      ((∃ p, mercator params = .ok p) ↔ params.ellipsoid.Accepted ∧ params.AcceptedScale)) ∧
    (params.AcceptedScale → params.variant = .parallelScale → params.ellipsoid.HasEccentricity →
      ∃ k, params.givenFactor = .ok (finite k) ∧ params.equatorFactor = .ok (finite k) ∧
        0 < k ∧ k ≤ 1) ∧
    (params.ellipsoid.WellFormed → params.ellipsoid.Accepted →
      params.ellipsoid.HasEccentricity) ∧
    ∀ e, mercator params = .error e →
      ∃ fault, params.Faults fault ∧ e = .invalidParameter fault := by
  refine ⟨accepted_of_mercator, fun he => ⟨accepted_of_mercator, ?_⟩, ?_,
    fun hwellFormed => hwellFormed.hasEccentricity, fun e => mercator_error⟩
  · rintro ⟨haccepted, hscale⟩
    exact exists_mercator_of_accepted h (fun hvariant => he hvariant haccepted) haccepted hscale
  · intro hscale hvariant he
    rw [ProjectionParameters.AcceptedScale, hvariant] at hscale
    obtain ⟨φ, hφ, hlt⟩ := hscale
    obtain ⟨k, hgiven, hpos, hle⟩ :=
      ProjectionParameters.givenFactor_between h he hvariant hφ hlt
    refine ⟨k, hgiven, ?_, hpos, hle⟩
    exact ProjectionParameters.equatorFactor_eq_ok_iff.mpr
      ⟨hgiven, pos_and_isFinite_iff.mpr ⟨k, rfl, hpos⟩⟩

end MapProjection

/-! ## Over the real numbers -/

/-- The functions of analysis are those that are relied on. -/
theorem Extended.trigonometric_real :
    letI : Elementary (Extended ℝ) := elementary inferInstance
    Trigonometric Real.pi :=
  letI : Elementary (Extended ℝ) := elementary inferInstance
  { pi_eq := rfl
    pi_pos := Real.pi_pos
    circle x := ⟨Real.sin x, Real.cos x, rfl, rfl, Real.sin_sq_add_cos_sq x, fun hx =>
      Real.cos_pos_of_mem_Ioo (abs_lt.mp hx)⟩
    sqrt x hx := ⟨√x, rfl, Real.sqrt_nonneg x, Real.sq_sqrt hx⟩ }

namespace MapProjection

/-- On an ellipsoid, the parallel of 60 degrees south and a pole, and with a given scale factor an
ellipsoid whose eccentricity is not a number. What no test reads may be anything. -/
theorem mercator_accepts_south :
    letI : Elementary (Extended ℝ) := Extended.elementary inferInstance
    let params (φ : ℝ) : ProjectionParameters (Extended ℝ) :=
      { ellipsoid := .ofFlattening (finite 6378137) (finite (1 / 298))
        variant := .parallelScale
        centralMeridian := nan
        scaleFactor := nan
        standardParallel := finite φ
        falseEasting := finite 0
        falseNorthing := infinite true }
    let given : ProjectionParameters (Extended ℝ) :=
      { params 0 with
        ellipsoid := ⟨finite 6378137, finite (1 / 298), nan, nan⟩
        variant := .pseudo
        scaleFactor := finite 2 }
    (∃ p, mercator (params (-60)) = .ok p) ∧ (¬ ∃ p, mercator (params (-90)) = .ok p) ∧
      ∃ p, mercator given = .ok p := by
  let _ : Elementary (Extended ℝ) := Extended.elementary inferInstance
  intro params given
  have hellipsoid (φ : ℝ) : (params φ).ellipsoid.Accepted :=
    ⟨⟨6378137, rfl, by norm_num⟩, 1 / 298, rfl, by norm_num, by norm_num⟩
  have haccepts (φ : ℝ) : (∃ p, mercator (params φ) = .ok p) ↔
      (params φ).ellipsoid.Accepted ∧ (params φ).AcceptedScale := by
    obtain ⟨-, hiff, -, hmade, -⟩ := mercator_accepts Extended.trigonometric_real (params φ)
    exact hiff fun _ => hmade (Ellipsoid.wellFormed_ofFlattening _ _)
  refine ⟨(haccepts (-60)).mpr ⟨hellipsoid _, -60, rfl, by norm_num⟩, ?_, ?_⟩
  · intro hpole
    obtain ⟨-, φ, ⟨⟩, hlt⟩ := (haccepts (-90)).mp hpole
    norm_num at hlt
  · obtain ⟨-, hiff, -⟩ := mercator_accepts Extended.trigonometric_real given
    refine (hiff nofun).mpr ⟨⟨⟨6378137, rfl, by norm_num⟩, 1 / 298, rfl, ?_⟩, 2, rfl, two_pos⟩
    norm_num

/-- The factor of a standard parallel at 60 degrees, by the squared eccentricity. -/
theorem parallelRadius_sixty (x : ℝ) :
    letI : Elementary (Extended ℝ) := Extended.elementary inferInstance
    Latitude.parallelRadius (toRadians (finite 60)) (finite x) =
      finite (1 / 2) / finite √(1 - x * (3 / 4)) := by
  let _ : Elementary (Extended ℝ) := Extended.elementary inferInstance
  have hradians : toRadians (finite 60) = finite (Real.pi / 3) := by
    rw [toRadians, ProjectionParameters.degree_eq Extended.trigonometric_real.pi_eq, finite_mul]
    congr 1
    ring
  have hsin : sin (finite (Real.pi / 3)) = finite (√3 / 2) :=
    congrArg finite Real.sin_pi_div_three
  have hcos : cos (finite (Real.pi / 3)) = finite (1 / 2) := congrArg finite Real.cos_pi_div_three
  have hsquare : x * (√3 / 2) * (√3 / 2) = x * (3 / 4) := by
    have hthree : √(3 : ℝ) * √3 = 3 := Real.mul_self_sqrt (by norm_num)
    linear_combination x / 4 * hthree
  rw [Latitude.parallelRadius, hradians, hsin, hcos]
  simp only [finite_mul, one_eq, finite_sub, hsquare]
  rfl

/-- On a sphere whose squared eccentricity has been replaced by a larger number, parameters that are
accepted make no projection, or one whose factor is above one. -/
theorem mercator_replaced_eccentricity :
    letI : Elementary (Extended ℝ) := Extended.elementary inferInstance
    let params (x : ℝ) : ProjectionParameters (Extended ℝ) :=
      { ellipsoid := ⟨finite 1, finite 0, finite 1, finite x⟩
        variant := .parallelScale
        centralMeridian := finite 0
        scaleFactor := finite 1
        standardParallel := finite 60
        falseEasting := finite 0
        falseNorthing := finite 0 }
    (∀ x, (params x).ellipsoid.Accepted ∧ (params x).AcceptedScale) ∧
      (¬ ∃ p, mercator (params (4 / 3)) = .ok p) ∧
      ∃ k, (params (6 / 5)).equatorFactor = .ok (finite k) ∧ 1 < k := by
  let _ : Elementary (Extended ℝ) := Extended.elementary inferInstance
  intro params
  have htest : Scalar.abs (finite 60 : Extended ℝ) < 90.0 :=
    abs_lt_ninety_iff.mpr ⟨60, rfl, by norm_num⟩
  have hgiven (x : ℝ) :
      (params x).givenFactor = .ok (finite (1 / 2) / finite √(1 - x * (3 / 4))) := by
    rw [← parallelRadius_sixty]
    exact if_pos htest
  refine ⟨fun x => ⟨⟨⟨1, rfl, one_pos⟩, 0, rfl, le_rfl, one_pos⟩, 60, rfl, by norm_num⟩, ?_, ?_⟩
  · have hinfinite : (finite (1 / 2) / finite √(1 - 4 / 3 * (3 / 4)) : Extended ℝ) =
        infinite (decide ((1 / 2 : ℝ) < 0)) := by
      have hroot : √(1 - 4 / 3 * (3 / 4) : ℝ) = 0 := by norm_num
      rw [hroot]
      change (if (0 : ℝ) = 0 then _ else _) = _
      rw [if_pos rfl, if_neg (by norm_num)]
    rw [exists_mercator_iff, ProjectionParameters.exists_equatorFactor_iff]
    rintro ⟨-, k, hk, -⟩
    rw [hgiven, hinfinite] at hk
    cases hk
  · have hroot : (0 : ℝ) < 1 - 6 / 5 * (3 / 4) := by norm_num
    have hpos : 0 < √(1 - 6 / 5 * (3 / 4) : ℝ) := Real.sqrt_pos.mpr hroot
    have hlt : √(1 - 6 / 5 * (3 / 4) : ℝ) < 1 / 2 :=
      (Real.sqrt_lt' (by norm_num)).mpr (by norm_num)
    have hfactor : 1 < 1 / 2 / √(1 - 6 / 5 * (3 / 4) : ℝ) := (one_lt_div hpos).mpr hlt
    refine ⟨1 / 2 / √(1 - 6 / 5 * (3 / 4)), ?_, hfactor⟩
    rw [ProjectionParameters.equatorFactor_eq_ok_iff, hgiven, finite_div _ hpos.ne']
    exact ⟨rfl, pos_and_isFinite_iff.mpr ⟨_, rfl, one_pos.trans hfactor⟩⟩

end MapProjection

end Georeferencing
