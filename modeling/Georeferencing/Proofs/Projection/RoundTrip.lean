import Georeferencing.Proofs.Projection.Backward
import Georeferencing.Proofs.Projection.Spherical

/-! # Round trips

The matrices on either side of the kernel scale both ordinates alike and move the point. The test
that an inverse has to pass compares the determinant with the columns, so only the translations
matter: it is passed as long as these stay below the reciprocal of the tolerance. A point then goes
through the projection and back, in either direction, wherever the kernel alone does.
-/

namespace Georeferencing

open Elementary

section Similarities

variable {K : Type} [Field K] {s tx ty : K}

/-- A scale other than zero and a translation reach every ordinate. -/
theorem exists_mul_add_eq (hs : s ≠ 0) (t b : K) : ∃ a, s * a + t = b :=
  ⟨(b - t) / s, by rw [mul_div_cancel₀ _ hs, sub_add_cancel]⟩

variable [LinearOrder K]

theorem Square.columnMagnitude_three [IsStrictOrderedRing K] (b : Square 3 K) (j : Fin 3) :
    b.columnMagnitude j = max (max |b 0 j| |b 1 j|) |b 2 j| := by
  have hcolumn : b.column j = [b 0 j, b 1 j, b 2 j] := rfl
  rw [Block.columnMagnitude, hcolumn]
  simp

namespace Projective

/-- The matrix that scales both ordinates of a point of the plane and moves it. -/
def similarity (s tx ty : K) : Projective K :=
  ⟨.small 3 isSmall_three (.of3 s 0 tx 0 s ty 0 0 1)⟩

theorem hasShape_similarity (s tx ty : K) : (similarity s tx ty).HasShape 2 2 := ⟨rfl, rfl, rfl⟩

theorem isAffine_similarity (s tx ty : K) : (similarity s tx ty).isAffine = true := by
  change RowMajor.isAffine 3 3 #[s, 0, tx, 0, s, ty, 0, 0, 1] = true
  simp [RowMajor.isAffine]

theorem image_similarity (s tx ty x y : K) :
    (similarity s tx ty).image [x, y] = [s * x + tx, s * y + ty] := by
  have hrows : (similarity s tx ty).image [x, y] =
      [-0 + x * s + y * 0 + tx, -0 + x * 0 + y * s + ty] := by
    rw [image, if_pos (isAffine_similarity s tx ty)]
    rfl
  rw [hrows]
  ring_nf

theorem exists_inverse_iff {t : Projective K} :
    (∃ u, t.inverse = .ok u) ↔ t.matrix.inverse ≠ .error .nonInvertible := by
  rw [← StoredMatrix.exists_inverse_iff, Projective.inverse]
  cases t.matrix.inverse with
  | error e => simp [bind, Except.bind]
  | ok x => simp [bind, Except.bind, pure, Except.pure]

variable [IsStrictOrderedRing K]

/-- The determinant and the columns have the scale in common, so it is the translations alone that
the tolerance refuses. -/
theorem exists_inverse_similarity_iff :
    (∃ u, (similarity s tx ty).inverse = .ok u) ↔ s ≠ 0 ∧ |tx| < 2 ^ 52 ∧ |ty| < 2 ^ 52 := by
  let b : Square 3 K := .of3 s 0 tx 0 s ty 0 0 1
  have hdet : b.toMatrix.det = s * s := by
    rw [Matrix.det_fin_three]
    change s * s * 1 - s * ty * 0 - 0 * 0 * 1 + 0 * ty * 0 + tx * 0 * 0 - tx * s * 0 = _
    ring
  have hcolumns : ∏ k, b.columnMagnitude k = |s| * |s| * max (max |tx| |ty|) 1 := by
    simp only [Fin.prod_univ_three, Square.columnMagnitude_three]
    change max (max |s| |0|) |0| * max (max |0| |s|) |0| * max (max |tx| |ty|) |1| = _
    simp
  have hrefused : (similarity s tx ty).matrix.inverse = .error .nonInvertible ↔
      |s| * |s| ≤ |s| * |s| * (Scalar.epsilon * max (max |tx| |ty|) 1) := by
    rw [similarity, StoredMatrix.inverse_small_refused_iff]
    change b.inverse3? = none ↔ _
    rw [Square.inverse3?_eq_none, ← Square.abs_det, hdet, hcolumns, abs_mul, mul_left_comm]
  rw [exists_inverse_iff, ne_eq, hrefused]
  -- a scale other than zero cancels
  by_cases hs : s = 0
  · simp [hs]
  · have hpos : 0 < |s| * |s| := mul_pos (abs_pos.mpr hs) (abs_pos.mpr hs)
    have hepsilon : (Scalar.epsilon : K) = 1 / 2 ^ 52 := by
      rw [Scalar.epsilon]
      norm_num
    have hbound : (1 : K) < 2 ^ 52 := by norm_num
    rw [le_mul_iff_one_le_right hpos, not_le, hepsilon, one_div, inv_mul_lt_one₀ (by positivity),
      max_lt_iff, max_lt_iff]
    simp [hs, hbound]

end Projective

variable [Elementary K]

theorem Transform.applyPoint_similarity (s tx ty x y : K) :
    (linear (.similarity s tx ty)).applyPoint [x, y] = .ok [s * x + tx, s * y + ty] := by
  rw [applyPoint_linear rfl, Projective.image_similarity]

theorem Transform.undoneAt_similarity [IsStrictOrderedRing K]
    (h : ∃ u, (Projective.similarity s tx ty).inverse = .ok u) (x y : K) :
    (linear (.similarity s tx ty)).UndoneAt [x, y] := by
  obtain ⟨u, hu⟩ := h
  have hshape := Projective.hasShape_similarity s tx ty
  have hdenominator : (Projective.similarity s tx ty).denominator [x, y] = 1 := by
    rw [Projective.denominator_eq hshape rfl]
    exact Projective.lift_last_of_isAffine hshape (Projective.isAffine_similarity s tx ty)
  apply undoneAt_linear _ hu rfl
  · rw [hdenominator]
    exact one_ne_zero
  · rwa [WellFormed]

end Similarities

section Kernels

variable {α : Type} [Scalar α] [Elementary α]

theorem Transform.undoneAt_mercator {m : Mercator α} {lambda phi : α}
    (h : m.ordinateToLatitude (m.latitudeToOrdinate phi) = .ok phi) :
    (Transform.mercator m).UndoneAt [lambda, phi] := by
  refine ⟨[lambda, m.latitudeToOrdinate phi], inverseMercator m, applyPoint_mercator m lambda phi,
    ?_, ?_⟩
  · rw [inverse]
  · rw [applyPoint_inverseMercator, Mercator.unprojectPoint, h]
    rfl

end Kernels

section Exact

variable {K : Type} [Field K] [LinearOrder K] {params : ProjectionParameters K}

theorem ProjectionParameters.denormalize_eq_similarity (params : ProjectionParameters K)
    (factor : K) :
    params.denormalize factor = .similarity (params.ellipsoid.semiMajor * factor)
      params.falseEasting params.falseNorthing := rfl

variable [Elementary K]

theorem ProjectionParameters.normalize_eq_similarity (params : ProjectionParameters K) :
    params.normalize = .similarity degree (-params.centralMeridian * degree) 0 := rfl

variable [IsStrictOrderedRing K]

theorem degree_pos (hpi : 0 < (pi : K)) : 0 < (degree : K) := by
  rw [degree]
  exact div_pos hpi (by norm_num)

theorem degree_le_one (hpi : (pi : K) ≤ 180) : (degree : K) ≤ 1 := by
  rw [degree, div_le_one (by norm_num)]
  exact hpi.trans (by norm_num)

namespace ProjectionParameters

theorem exists_inverse_normalize (hpi : 0 < (pi : K)) (hpi' : (pi : K) ≤ 180)
    (hmeridian : |params.centralMeridian| < 2 ^ 52) : ∃ u, params.normalize.inverse = .ok u := by
  have hdegree : 0 < (degree : K) := degree_pos hpi
  rw [normalize_eq_similarity, Projective.exists_inverse_similarity_iff, abs_mul, abs_neg,
    abs_of_pos hdegree]
  refine ⟨hdegree.ne', ?_, by norm_num⟩
  exact (mul_le_of_le_one_right (abs_nonneg _) (degree_le_one hpi')).trans_lt hmeridian

theorem scale_ne_zero {factor : K} (hcheck : params.checkEllipsoid = .ok ())
    (hfactor : params.equatorFactor = .ok factor) : params.ellipsoid.semiMajor * factor ≠ 0 :=
  mul_ne_zero (semiMajor_of_checkEllipsoid hcheck).1.ne' (pos_of_equatorFactor hfactor).1.ne'

theorem exists_inverse_denormalize {factor : K} (hcheck : params.checkEllipsoid = .ok ())
    (hfactor : params.equatorFactor = .ok factor) (heasting : |params.falseEasting| < 2 ^ 52)
    (hnorthing : |params.falseNorthing| < 2 ^ 52) :
    ∃ u, (params.denormalize factor).inverse = .ok u := by
  rw [denormalize_eq_similarity, Projective.exists_inverse_similarity_iff]
  exact ⟨scale_ne_zero hcheck hfactor, heasting, hnorthing⟩

end ProjectionParameters

namespace MapProjection

open Transform

variable {p : MapProjection K}

/-- Between two similarities that have inverses, a point that the kernel takes back is taken
back. -/
theorem forward_backward_of_kernel {d cx cy s fe fn : K} (h : mercator params = .ok p)
    (hn : p.normalize = .similarity d cx cy) (hd : p.denormalize = .similarity s fe fn)
    (hn' : ∃ u, p.normalize.inverse = .ok u) (hd' : ∃ u, p.denormalize.inverse = .ok u)
    {lon lat η : K} (hη : p.kernel.latitudeToOrdinate (d * lat + cy) = η)
    (hkernel : p.kernel.ordinateToLatitude η = .ok (d * lat + cy)) :
    p.forward lon lat = .ok (s * (d * lon + cx) + fe, s * η + fn) ∧
      p.backward (s * (d * lon + cx) + fe) (s * η + fn) = .ok (lon, lat) := by
  obtain ⟨⟨hshape, -⟩, hshape', -⟩ := held_of_mercator h
  have hsteps : p.steps =
      [linear (.similarity d cx cy), .mercator p.kernel, linear (.similarity s fe fn)] := by
    rw [steps, hn, hd]
  rw [hn] at hn'
  rw [hd] at hd'
  subst hη
  have hundone : AllUndoneAt p.steps [lon, lat] := by
    rw [hsteps]
    apply AllUndoneAt.cons (applyPoint_similarity d cx cy lon lat) (undoneAt_similarity hn' _ _)
    apply AllUndoneAt.cons (applyPoint_mercator _ _ _) (undoneAt_mercator hkernel)
    exact AllUndoneAt.cons (applyPoint_similarity s fe fn _ _) (undoneAt_similarity hd' _ _) trivial
  have hpoint : applyInOrder p.steps [lon, lat] =
      .ok [s * (d * lon + cx) + fe, s * p.kernel.latitudeToOrdinate (d * lat + cy) + fn] := by
    rw [hsteps, applyInOrder_cons_ok (applyPoint_similarity d cx cy lon lat),
      applyInOrder_cons_ok (applyPoint_mercator _ _ _),
      applyInOrder_cons_ok (applyPoint_similarity s fe fn _ _)]
    rfl
  obtain ⟨q, hq, hretraces⟩ := hundone.retraces
  obtain rfl := Except.ok.inj (hpoint.symm.trans hq)
  obtain ⟨⟨lon', lat'⟩, hback, hsame⟩ := (retraces_steps hshape.source hshape'.source).mp hretraces
  constructor
  · rw [forward_eq h, applyInOrder_activeSteps_eq h, hpoint]
    rfl
  · rw [hback]
    simpa using hsame.symm

/-- Over exact numbers, no accepted projection with its origin within two to the power 52 has a
matrix that is refused. A point goes to the map and back to itself if the kernel takes its latitude
back, and from the map and back if the kernel gives the ordinate again. -/
theorem forward_backward (h : mercator params = .ok p) (hpi : 0 < (pi : K)) (hpi' : (pi : K) ≤ 180)
    (hmeridian : |params.centralMeridian| < 2 ^ 52) (heasting : |params.falseEasting| < 2 ^ 52)
    (hnorthing : |params.falseNorthing| < 2 ^ 52) :
    (∃ u, p.normalize.inverse = .ok u) ∧ (∃ u, p.denormalize.inverse = .ok u) ∧
    (∀ lon lat, p.kernel.ordinateToLatitude (p.kernel.latitudeToOrdinate (toRadians lat)) =
      .ok (toRadians lat) →
        ∃ x y, p.forward lon lat = .ok (x, y) ∧ p.backward x y = .ok (lon, lat)) ∧
    ∃ factor, params.equatorFactor = .ok factor ∧ ∀ x y φ,
      p.kernel.ordinateToLatitude
        ((y - params.falseNorthing) / (params.ellipsoid.semiMajor * factor)) = .ok φ →
      p.kernel.latitudeToOrdinate φ =
        (y - params.falseNorthing) / (params.ellipsoid.semiMajor * factor) →
      ∃ lon lat, p.backward x y = .ok (lon, lat) ∧ p.forward lon lat = .ok (x, y) := by
  obtain ⟨factor, hcheck, hfactor, -, hn, hd, -⟩ := mercator_ok h
  have hn' : ∃ u, p.normalize.inverse = .ok u := by
    rw [hn]
    exact ProjectionParameters.exists_inverse_normalize hpi hpi' hmeridian
  have hd' : ∃ u, p.denormalize.inverse = .ok u := by
    rw [hd]
    exact ProjectionParameters.exists_inverse_denormalize hcheck hfactor heasting hnorthing
  rw [ProjectionParameters.normalize_eq_similarity] at hn
  rw [ProjectionParameters.denormalize_eq_similarity] at hd
  refine ⟨hn', hd', ?_, factor, hfactor, ?_⟩
  · intro lon lat hkernel
    have hlat : toRadians lat = degree * lat + 0 := by rw [toRadians, add_zero, mul_comm]
    rw [hlat] at hkernel
    exact ⟨_, _, forward_backward_of_kernel h hn hd hn' hd' rfl hkernel⟩
  · intro x y φ hφ hη
    -- the point of the map and the latitude are images under the matrices, which can be solved for
    have hscale := ProjectionParameters.scale_ne_zero hcheck hfactor
    have hdegree : (degree : K) ≠ 0 := (degree_pos hpi).ne'
    obtain ⟨ξ, rfl⟩ := exists_mul_add_eq hscale params.falseEasting x
    obtain ⟨η, rfl⟩ := exists_mul_add_eq hscale params.falseNorthing y
    obtain ⟨lon, rfl⟩ := exists_mul_add_eq hdegree (-params.centralMeridian * degree) ξ
    obtain ⟨lat, rfl⟩ := exists_mul_add_eq hdegree 0 φ
    rw [add_sub_cancel_right, mul_div_cancel_left₀ _ hscale] at hφ hη
    obtain ⟨hforward, hbackward⟩ := forward_backward_of_kernel h hn hd hn' hd' hη hφ
    exact ⟨lon, lat, hbackward, hforward⟩

/-- A web map of the real numbers with an origin of its own. -/
theorem forward_backward_web :
    let params : ProjectionParameters ℝ :=
      { ProjectionParameters.web with centralMeridian := 9, falseEasting := 500000 }
    ∃ p, mercator params = .ok p ∧
      (∃ x y, p.forward 54 60 = .ok (x, y) ∧ p.backward x y = .ok (54, 60)) ∧
      ∃ lon lat, p.backward 0 1000000 = .ok (lon, lat) ∧ p.forward lon lat = .ok (0, 1000000) := by
  intro params
  have hcheck : params.checkEllipsoid = .ok () := by
    norm_num [params, ProjectionParameters.checkEllipsoid, ProjectionParameters.web,
      ProjectionParameters.standard, Ellipsoid.wgs84, Ellipsoid.ofFlattening, Scalar.isFinite]
  have hfactor : params.equatorFactor = .ok 1 := by
    simp [params, ProjectionParameters.equatorFactor, ProjectionParameters.givenFactor,
      ProjectionParameters.web, ProjectionParameters.standard, Scalar.isFinite, bind, Except.bind]
  obtain ⟨p, h⟩ := exists_mercator hcheck hfactor
  obtain ⟨factor, -, -, hkernel, -⟩ := mercator_ok h
  have hspherical : p.kernel.isSpherical = true := by
    rw [hkernel]
    rfl
  have hpi : Real.pi ≤ 180 := Real.pi_le_four.trans (by norm_num)
  have hmeridian : |params.centralMeridian| < 2 ^ 52 := by
    change |(9 : ℝ)| < _
    norm_num
  have heasting : |params.falseEasting| < 2 ^ 52 := by
    change |(500000 : ℝ)| < _
    norm_num
  have hnorthing : |params.falseNorthing| < 2 ^ 52 := by
    change |(0 : ℝ)| < _
    norm_num
  obtain ⟨-, -, hthere, factor, -, hback⟩ :=
    forward_backward h Real.pi_pos hpi hmeridian heasting hnorthing
  refine ⟨p, h, hthere 54 60 ?_, ?_⟩
  · apply Mercator.ordinateToLatitude_latitudeToOrdinate hspherical
    have hlat : (toRadians 60 : ℝ) = Real.pi / 3 := by
      change 60 * (Real.pi / 180.0) = _
      norm_num
      ring
    rw [hlat, abs_of_pos (by positivity)]
    linarith [Real.pi_pos]
  · have hφ := Mercator.ordinateToLatitude_spherical hspherical
      ((1000000 - params.falseNorthing) / (params.ellipsoid.semiMajor * factor))
    exact hback 0 1000000 _ hφ (Mercator.latitudeToOrdinate_ordinateToLatitude hspherical hφ).2

end MapProjection

end Exact

end Georeferencing
