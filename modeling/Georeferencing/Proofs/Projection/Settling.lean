import Mathlib
import Georeferencing.Proofs.Projection.Isometric

/-! # Latitudes that settle

A latitude is a fixed point of the step that improves an estimate of it. Where the step is a
contraction, the last correction, which is what the iteration looks at, bounds the distance from the
fixed point, and corrections fade fast enough to be accepted in time. On the real numbers the step
is a contraction by the square of the eccentricity as long as that is at most one half.
-/

namespace Georeferencing.Latitude

open Elementary

section Exact

variable {K : Type} [Field K] [LinearOrder K]

/-- A function that keeps a set and brings any two points of it together by the factor `q`. -/
structure ContractsOn (f : K → K) (s : Set K) (q : K) : Prop where
  mapsTo : Set.MapsTo f s s
  le : ∀ x ∈ s, ∀ y ∈ s, |f x - f y| ≤ q * |x - y|

variable [IsStrictOrderedRing K] {f : K → K} {s : Set K} {q x φ tolerance : K}

omit [IsStrictOrderedRing K] in
/-- A correction is at most `q` times the one before it. -/
theorem ContractsOn.correction_le (h : ContractsOn f s q) (hx : x ∈ s) :
    |f (f x) - f x| ≤ q * |f x - x| :=
  h.le (f x) (h.mapsTo hx) x hx

/-- What a correction says about the distance from the fixed point. -/
theorem ContractsOn.error_le (h : ContractsOn f s q) (hq : q < 1) (hq' : 0 ≤ q)
    (hφ : f φ = φ) (hφs : φ ∈ s) (hx : x ∈ s) (hcorrection : |f x - x| ≤ tolerance) :
    |f x - φ| ≤ q / (1 - q) * tolerance := by
  have hstep : |f x - φ| ≤ q * |x - φ| := by
    calc |f x - φ| = |f x - f φ| := by rw [hφ]
      _ ≤ q * |x - φ| := h.le x hx φ hφs
  have htriangle : |x - φ| ≤ |f x - x| + |f x - φ| := by
    rw [abs_sub_comm (f x) x]
    exact abs_sub_le x (f x) φ
  have hbound : |f x - φ| ≤ q * (tolerance + |f x - φ|) :=
    hstep.trans (mul_le_mul_of_nonneg_left (htriangle.trans (add_le_add_left hcorrection _)) hq')
  rw [div_mul_eq_mul_div, le_div_iff₀ (sub_pos.mpr hq)]
  linarith

variable [Elementary K] {ts e r : K} {count : ℕ}

/-- What the iteration returns is an improved estimate that the last correction hardly changed. -/
theorem settle_eq_ok (hkeeps : Set.MapsTo (refine ts e) s s) (hx : x ∈ s)
    (h : settle ts e count x = .ok r) :
    ∃ p ∈ s, r = refine ts e p ∧ |refine ts e p - p| ≤ iterationTolerance := by
  induction count generalizing x with
  | zero => cases h
  | succ count ih =>
    simp only [settle, Exact.abs_eq] at h
    split at h
    · exact ih (hkeeps hx) h
    · next hsmall =>
      cases h
      exact ⟨x, hx, rfl, not_lt.mp hsmall⟩

/-- An iteration of a contraction ends in time if its first correction is small enough. -/
theorem exists_settle (h : ContractsOn (refine ts e) s q) (hq : 0 ≤ q) (hx : x ∈ s)
    (hfirst : q ^ count * |refine ts e x - x| ≤ iterationTolerance) :
    ∃ r, settle ts e (count + 1) x = .ok r := by
  induction count generalizing x with
  | zero =>
    rw [pow_zero, one_mul] at hfirst
    refine ⟨refine ts e x, ?_⟩
    simp only [settle, Exact.abs_eq, if_neg (not_lt.mpr hfirst)]
  | succ count ih =>
    rw [settle]
    split
    · apply ih (h.mapsTo hx)
      calc q ^ count * |refine ts e (refine ts e x) - refine ts e x|
          ≤ q ^ count * (q * |refine ts e x - x|) :=
            mul_le_mul_of_nonneg_left (h.correction_le hx) (pow_nonneg hq count)
        _ = q ^ (count + 1) * |refine ts e x - x| := by rw [pow_succ, mul_assoc]
        _ ≤ iterationTolerance := hfirst
    · exact ⟨_, rfl⟩

/-- A latitude is what the step makes of it. -/
theorem refine_eq_self (h : Lawful K) (he : 0 ≤ e) (he' : e < 1) (hφ : |φ| < halfPi) :
    refine (1 / isometricRatio φ (e * sin φ) e) e φ = φ := by
  have hdeparture := h.departure_pos (h.abs_mul_sin_lt_one he he' φ) e
  have htan := h.tan_pos φ hφ
  have hratio : 1 / isometricRatio φ (e * sin φ) e * departure (e * sin φ) e =
      1 / tan (quarterPi + 0.5 * φ) := by
    rw [isometricRatio]
    field_simp
  rw [refine, hratio, sphericalOfRatio, h.atan_inv_tan φ hφ, halfPi_eq, quarterPi_eq]
  norm_num
  ring

theorem ofRatio_error_le (h : ContractsOn (refine ts e) s q) (hq : 0 ≤ q) (hq' : q < 1)
    (hφ : refine ts e φ = φ) (hφs : φ ∈ s) (hstart : sphericalOfRatio ts ∈ s)
    (hr : ofRatio ts e = .ok r) : |r - φ| ≤ q / (1 - q) * iterationTolerance := by
  obtain ⟨p, hp, rfl, hlast⟩ := settle_eq_ok h.mapsTo hstart hr
  exact h.error_le hq' hq hφ hφs hp hlast

end Exact

/-! ## Real numbers -/

section Real

variable {e ts φ : ℝ}

theorem hasDerivAt_refine (he : 0 ≤ e) (he' : e < 1) (ts x : ℝ) :
    HasDerivAt (refine ts e)
      (2 * (ts * departure (e * sin x) e) / (1 + (ts * departure (e * sin x) e) ^ 2) *
        (e ^ 2 * Real.cos x / (1 - (e * Real.sin x) ^ 2))) x := by
  have harctan := ((hasDerivAt_departure he he' x).const_mul ts).arctan
  refine ((harctan.const_mul 2.0).const_sub halfPi).congr_deriv ?_
  norm_num
  ring

theorem abs_two_mul_div_le_one (u : ℝ) : |2 * u / (1 + u ^ 2)| ≤ 1 := by
  have hpos : 0 < 1 + u ^ 2 := by positivity
  rw [abs_div, abs_of_pos hpos, div_le_one hpos, abs_mul, abs_two, ← sq_abs u]
  nlinarith [sq_nonneg (|u| - 1)]

/-- If the square of the eccentricity is at most one half, the step is steepest at the equator. -/
theorem abs_mul_cos_div_le (h : e ^ 2 ≤ 1 / 2) (x : ℝ) :
    |e ^ 2 * Real.cos x / (1 - (e * Real.sin x) ^ 2)| ≤ e ^ 2 := by
  have hsquare : (e * Real.sin x) ^ 2 = e ^ 2 * (1 - |Real.cos x| ^ 2) := by
    rw [mul_pow, Real.sin_sq, sq_abs]
  have hcos := Real.abs_cos_le_one x
  have hnonneg := abs_nonneg (Real.cos x)
  have hdenominator : |Real.cos x| ≤ 1 - (e * Real.sin x) ^ 2 := by
    -- the difference is a product of two numbers that are not negative
    have hproduct : 0 ≤ (1 - |Real.cos x|) * (1 - e ^ 2 * (1 + |Real.cos x|)) := by
      apply mul_nonneg (sub_nonneg.mpr hcos)
      nlinarith [sq_nonneg e]
    rw [hsquare]
    linarith
  have hpos : 0 < 1 - (e * Real.sin x) ^ 2 := by
    have hsin := Real.sin_sq_le_one x
    nlinarith [sq_nonneg e]
  rw [abs_div, abs_mul, abs_of_nonneg (sq_nonneg e), abs_of_pos hpos, div_le_iff₀ hpos]
  exact mul_le_mul_of_nonneg_left hdenominator (sq_nonneg e)

/-- On the real numbers the step is a contraction by the square of the eccentricity. -/
theorem contractsOn_real (he : 0 ≤ e) (h : e ^ 2 ≤ 1 / 2) (ts : ℝ) :
    ContractsOn (refine ts e) Set.univ (e ^ 2) where
  mapsTo _ _ := Set.mem_univ _
  le x _ y _ := by
    have he' : e < 1 := by nlinarith
    apply convex_univ.norm_image_sub_le_of_norm_hasDerivWithin_le
      (fun z _ => (hasDerivAt_refine he he' ts z).hasDerivWithinAt) _ (Set.mem_univ y)
      (Set.mem_univ x)
    intro z _
    rw [Real.norm_eq_abs, abs_mul]
    exact (mul_le_mul (abs_two_mul_div_le_one _) (abs_mul_cos_div_le h z) (abs_nonneg _)
      zero_le_one).trans_eq (one_mul _)

/-- The first correction is less than half a turn. -/
theorem abs_first_correction_lt (he : 0 ≤ e) (he' : e < 1) (hts : 0 < ts) (x : ℝ) :
    |refine ts e x - sphericalOfRatio ts| < Real.pi := by
  have hdeparture : 0 < departure (e * sin x) e :=
    lawful_real.departure_pos (lawful_real.abs_mul_sin_lt_one he he' x) e
  have hnext := abs_sphericalOfRatio_lt circular_real (mul_pos hts hdeparture)
  have hstart := abs_sphericalOfRatio_lt circular_real hts
  rw [halfPi_real] at hnext hstart
  calc |refine ts e x - sphericalOfRatio ts|
      ≤ |refine ts e x| + |sphericalOfRatio ts| := abs_sub _ _
    _ < Real.pi / 2 + Real.pi / 2 := add_lt_add hnext hstart
    _ = Real.pi := add_halves _

/-- The first correction is accepted in time if the square of the eccentricity is at most one
tenth. -/
theorem first_correction_accepted (he : 0 ≤ e) (h : e ^ 2 ≤ 1 / 10) (hts : 0 < ts) :
    (e ^ 2) ^ 14 * |refine ts e (sphericalOfRatio ts) - sphericalOfRatio ts| ≤ 1e-10 := by
  have he' : e < 1 := by nlinarith
  have hcorrection := (abs_first_correction_lt he he' hts (sphericalOfRatio ts)).le
  calc (e ^ 2) ^ 14 * |refine ts e (sphericalOfRatio ts) - sphericalOfRatio ts|
      ≤ (1 / 10) ^ 14 * 4 :=
        mul_le_mul (pow_le_pow_left₀ (sq_nonneg e) h 14) (hcorrection.trans Real.pi_le_four)
          (abs_nonneg _) (by norm_num)
    _ ≤ 1e-10 := by norm_num

end Real

/-! ## Finding a latitude again -/

variable {K : Type} [Field K] [LinearOrder K] [IsStrictOrderedRing K] [Elementary K] {e φ : K}

/-- A latitude is a fixed point of the iteration that starts from the ratio it has. Where the step
is a contraction by `q`, a latitude that is returned is within `q / (1 - q)` of the tolerance, and
one is returned if fourteen more steps reduce the first correction to the tolerance. -/
theorem ofRatio_near (h : Lawful K) (he : 0 ≤ e) (he' : e < 1) (hφ : |φ| < halfPi) :
    let ts := 1 / isometricRatio φ (e * sin φ) e
    refine ts e φ = φ ∧
    ∀ (s : Set K) (q : K), 0 ≤ q → q < 1 → ContractsOn (refine ts e) s q → φ ∈ s →
      sphericalOfRatio ts ∈ s →
      (∀ r, ofRatio ts e = .ok r → |r - φ| ≤ q / (1 - q) * 1e-10) ∧
      (q ^ 14 * |refine ts e (sphericalOfRatio ts) - sphericalOfRatio ts| ≤ 1e-10 →
        ∃ r, ofRatio ts e = .ok r) := by
  intro ts
  have hfixed : refine ts e φ = φ := refine_eq_self h he he' hφ
  refine ⟨hfixed, fun s q hq hq' hcontracts hφs hstart => ⟨fun r hr => ?_, fun hfirst => ?_⟩⟩
  · exact ofRatio_error_le hcontracts hq hq' hfixed hφs hstart hr
  · exact exists_settle hcontracts hq hstart hfirst

/-- The parallel of 30 degrees on an ellipsoid of the real numbers. -/
theorem ofRatio_near_tenth :
    let ts : ℝ := 1 / isometricRatio (Real.pi / 6) (1 / 10 * sin (Real.pi / 6)) (1 / 10)
    refine ts (1 / 10) (Real.pi / 6) = Real.pi / 6 ∧
      ∃ r, ofRatio ts (1 / 10) = .ok r ∧ |r - Real.pi / 6| ≤ 1 / 99 * 1e-10 := by
  intro ts
  have he : (0 : ℝ) ≤ 1 / 10 := by norm_num
  have he' : (1 / 10 : ℝ) < 1 := by norm_num
  have hφ : |Real.pi / 6| < halfPi := by
    rw [halfPi_real, abs_of_pos (by positivity)]
    linarith [Real.pi_pos]
  have hts : 0 < ts := one_div_pos.mpr (lawful_real.isometricRatio_pos he he' hφ)
  obtain ⟨hfixed, hcontraction⟩ := ofRatio_near lawful_real he he' hφ
  obtain ⟨hnear, hexists⟩ := hcontraction Set.univ ((1 / 10) ^ 2) (by norm_num) (by norm_num)
    (contractsOn_real he (by norm_num) ts) (Set.mem_univ _) (Set.mem_univ _)
  obtain ⟨r, hr⟩ := hexists (first_correction_accepted he (by norm_num) hts)
  refine ⟨hfixed, r, hr, (hnear r hr).trans_eq ?_⟩
  norm_num

end Georeferencing.Latitude

namespace Georeferencing.Mercator

open Elementary

/-- On an ellipsoid whose eccentricity has a square of at most one tenth, every latitude strictly
between the poles is found again. -/
theorem ordinateToLatitude_near {m : Mercator ℝ} {φ : ℝ} (hm : m.isSpherical = false)
    (he : 0 ≤ m.eccentricity) (h : m.eccentricity ^ 2 ≤ 1 / 10) (hφ : |φ| < Real.pi / 2) :
    ∃ r, m.ordinateToLatitude (m.latitudeToOrdinate φ) = .ok r ∧
      |r - φ| ≤ m.eccentricity ^ 2 / (1 - m.eccentricity ^ 2) * 1e-10 := by
  have he' : m.eccentricity < 1 := by nlinarith
  have hφ' : |φ| < halfPi := halfPi_real ▸ hφ
  have hratio := Latitude.lawful_real.isometricRatio_pos he he' hφ'
  have hback : m.ordinateToLatitude (m.latitudeToOrdinate φ) =
      Latitude.ofRatio (1 / Latitude.isometricRatio φ (m.eccentricity * sin φ) m.eccentricity)
        m.eccentricity := by
    rw [ordinateToLatitude, hm, if_neg Bool.false_ne_true, latitudeToOrdinate_ellipsoidal hm hφ]
    apply congrArg (Latitude.ofRatio · m.eccentricity)
    rw [exponential_real.exp_neg]
    exact congrArg (1 / ·) (exponential_real.exp_log _ hratio)
  have hcontracts := Latitude.contractsOn_real he (h.trans (by norm_num))
    (1 / Latitude.isometricRatio φ (m.eccentricity * sin φ) m.eccentricity)
  obtain ⟨r, hr⟩ := Latitude.exists_settle hcontracts (sq_nonneg _) (Set.mem_univ _)
    (Latitude.first_correction_accepted he h (one_div_pos.mpr hratio))
  refine ⟨r, hback.trans hr, ?_⟩
  exact Latitude.ofRatio_error_le hcontracts (sq_nonneg _) (h.trans_lt (by norm_num))
    (Latitude.refine_eq_self Latitude.lawful_real he he' hφ') (Set.mem_univ _) (Set.mem_univ _) hr

end Georeferencing.Mercator
