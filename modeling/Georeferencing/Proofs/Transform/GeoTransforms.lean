import Georeferencing.Proofs.Matrix.Strictness
import Georeferencing.Proofs.Transform.Session

/-! # Coefficients of affine transforms of the plane

The six coefficients that raster headers list are the first two rows of an affine matrix of size
three, in another order. A transform made of them maps every point as the matrix does, and its
matrix has the same values: the last row may only differ in the signs of its zeros. They are given
only for a matrix in the storage that its shape asks for, although a flat one lists them as well.
-/

namespace Georeferencing

namespace Projective

section Coefficients

variable {α : Type} {t : Projective α}

/-- A matrix of size three, coefficient by coefficient. -/
theorem exists_elements (h : t.matrix.Consistent) (hr : t.matrix.numRow = 3)
    (hc : t.matrix.numCol = 3) :
    ∃ a b c d e f u v w : α, t.matrix.elements = #[a, b, c, d, e, f, u, v, w] := by
  have hsize : t.matrix.elements.toList.length = 9 := by
    rw [Array.length_toList, h, hr, hc]
  match hlist : t.matrix.elements.toList, hsize with
  | [a, b, c, d, e, f, u, v, w], _ =>
    exact ⟨a, b, c, d, e, f, u, v, w, Array.toList_inj.mp hlist⟩

variable [Scalar α] {g : GeoTransform α}

/-- An affine transform of the plane. -/
structure PlanarAffine (t : Projective α) : Prop where
  source : t.source = 2
  target : t.target = 2
  affine : t.isAffine = true

instance (t : Projective α) : Decidable t.PlanarAffine :=
  decidable_of_iff (t.source = 2 ∧ t.target = 2 ∧ t.isAffine = true)
    ⟨fun h => ⟨h.1, h.2.1, h.2.2⟩, fun h => ⟨h.source, h.target, h.affine⟩⟩

theorem PlanarAffine.numRow (h : t.PlanarAffine) : t.matrix.numRow = 3 := by
  have htarget := h.target
  rw [Projective.target] at htarget
  omega

theorem PlanarAffine.numCol (h : t.PlanarAffine) : t.matrix.numCol = 3 := by
  have hsource := h.source
  rw [Projective.source] at hsource
  omega

/-- A small square array is not the storage that its shape asks for. -/
theorem PlanarAffine.not_canonical_flat {m : FlatMatrix α} (h : t.PlanarAffine)
    (hm : t.matrix = .flat m) : ¬ t.matrix.Canonical := by
  have hrow := h.numRow
  have hcol := h.numCol
  rw [hm] at hrow hcol ⊢
  rintro ⟨-, hshape⟩
  change m.numRow = 3 at hrow
  change m.numCol = 3 at hcol
  rw [hrow, hcol] at hshape
  exact hshape ⟨rfl, isSmall_three⟩

/-- The first two rows of a matrix of size three, in the order of raster headers. -/
def coefficients (t : Projective α) : GeoTransform α :=
  let e k := t.matrix.elements.getD k 0
  ⟨e 2, e 0, e 1, e 5, e 3, e 4⟩

theorem toGeoTransform?_small (h : IsSmall 3) (m : Square 3 α) :
    toGeoTransform? ⟨.small 3 h m⟩ =
      if isAffine ⟨.small 3 h m⟩ then some (coefficients ⟨.small 3 h m⟩) else none := by
  have hread : m.withEntries3 (fun a b c d e f _ _ _ => (⟨c, a, b, f, d, e⟩ : GeoTransform α)) =
      coefficients ⟨.small 3 h m⟩ := by
    rw [Square.withEntries3, ← m.getD_elements 0 0, ← m.getD_elements 0 1, ← m.getD_elements 0 2,
      ← m.getD_elements 1 0, ← m.getD_elements 1 1, ← m.getD_elements 1 2]
    rfl
  rw [← hread]
  rfl

/-- The coefficients are given for affine transforms of the plane whose matrix is held in the
storage that its shape asks for. -/
theorem toGeoTransform?_eq_some_iff :
    t.toGeoTransform? = some g ↔ t.PlanarAffine ∧ t.matrix.Canonical ∧ t.coefficients = g := by
  obtain ⟨matrix⟩ := t
  cases matrix with
  | flat m =>
    apply iff_of_false
    · nofun
    · rintro ⟨h, hcanonical, -⟩
      exact h.not_canonical_flat rfl hcanonical
  | small n hn m =>
    by_cases hsize : n = 3
    · subst hsize
      rw [toGeoTransform?_small, Option.ite_none_right_eq_some, Option.some_inj]
      constructor
      · rintro ⟨haffine, hg⟩
        exact ⟨⟨rfl, rfl, haffine⟩, trivial, hg⟩
      · rintro ⟨h, -, hg⟩
        exact ⟨h.affine, hg⟩
    · apply iff_of_false
      · rw [toGeoTransform?]
        split
        · next hmatrix =>
          cases hmatrix
          exact absurd rfl hsize
        · nofun
      · rintro ⟨h, -⟩
        exact hsize h.numRow

theorem exists_toGeoTransform?_iff :
    (∃ g, t.toGeoTransform? = some g) ↔ t.PlanarAffine ∧ t.matrix.Canonical := by
  simp [toGeoTransform?_eq_some_iff]

/-- An affine transform of the plane reads the first two rows of its matrix. -/
theorem PlanarAffine.image_eq {a b c d e f u v w : α} (h : t.PlanarAffine)
    (helements : t.matrix.elements = #[a, b, c, d, e, f, u, v, w]) (p : List α) :
    t.image p = [Scalar.sum (p.zipWith (· * ·) [a, b, c]) + c,
      Scalar.sum (p.zipWith (· * ·) [d, e, f]) + f] := by
  rw [image, if_pos h.affine, h.target]
  simp only [rowProduct, h.numCol, h.source, helements]
  rfl

end Coefficients

/-! ## Doubles -/

/-- A transform that maps all points as another one does, bit for bit, and whose matrix has the same
values. -/
structure ActsAs (t u : Projective Float) : Prop where
  source : t.source = u.source
  target : t.target = u.target
  points : ∀ p, (Transform.linear t).applyPoint p = (Transform.linear u).applyPoint p
  batches : ∀ src dst count, t.applyBatch src dst count = u.applyBatch src dst count
  equal : Strictness.byContract.equal (some (.stored t.matrix)) (some (.stored u.matrix)) = true

variable {t : Projective Float} {g : GeoTransform Float}

/-- The test of the last row of a matrix of size three. -/
theorem isAffine_three {a b c d e f u v w : Float} :
    RowMajor.isAffine 3 3 #[a, b, c, d, e, f, u, v, w] = true ↔
      (w == 1) = true ∧ (u == 0) = true ∧ (v == 0) = true := by
  simp only [RowMajor.isAffine, Bool.and_eq_true]
  simp
  exact Iff.rfl

theorem elements_ofGeoTransform (g : GeoTransform Float) :
    (ofGeoTransform g).matrix.elements = #[g.a, g.b, g.c, g.d, g.e, g.f, 0, 0, 1] := rfl

theorem planarAffine_ofGeoTransform (g : GeoTransform Float) : (ofGeoTransform g).PlanarAffine := by
  refine ⟨rfl, rfl, ?_⟩
  rw [isAffine, StoredMatrix.isAffine, elements_ofGeoTransform]
  refine isAffine_three.mpr ?_
  decide +kernel

/-- The matrices have the same first two rows, and the last rows are equal as numbers. -/
theorem actsAs_ofGeoTransform (h : t.matrix.Consistent) (ht : t.PlanarAffine) :
    t.ActsAs (ofGeoTransform t.coefficients) := by
  obtain ⟨a, b, c, d, e, f, u, v, w, helements⟩ := exists_elements h ht.numRow ht.numCol
  have hgeo : t.coefficients = ⟨c, a, b, f, d, e⟩ := by
    rw [coefficients, helements]
    rfl
  have hg := planarAffine_ofGeoTransform t.coefficients
  have himage : ∀ p, t.image p = (ofGeoTransform t.coefficients).image p := by
    intro p
    rw [ht.image_eq helements, hg.image_eq (elements_ofGeoTransform _), hgeo]
  have hbatch : ∀ src dst count, t.applyBatch src dst count =
      (ofGeoTransform t.coefficients).applyBatch src dst count := by
    intro src dst count
    simp only [applyBatch, himage, ht.source, ht.target, hg.source, hg.target]
  refine ⟨ht.source.trans hg.source.symm, ht.target.trans hg.target.symm, fun p => ?_, hbatch, ?_⟩
  · simp only [Transform.applyPoint, Transform.source, Transform.target, Transform.applyBatch,
      hbatch, ht.source, ht.target, hg.source, hg.target]
  · have haffine := ht.affine
    rw [isAffine, StoredMatrix.isAffine, ht.numRow, ht.numCol, helements, isAffine_three] at haffine
    -- only the last rows differ, where the test of an affine matrix has compared already
    obtain ⟨hw, hu, hv⟩ := haffine
    have hsame (x : Float) : Scalar.equalWithin 0 false x x = true :=
      Double.equalWithin_of_like false (.refl x)
    have hlike {x y : Float} (h : (x == y) = true) : Scalar.equalWithin 0 false x y = true :=
      Double.equalWithin_of_like false (.inl h)
    have hcells : (t.matrix.elements.toList.zip
        (ofGeoTransform t.coefficients).matrix.elements.toList).all
        (fun cell => Scalar.equalWithin 0 false cell.1 cell.2) = true := by
      rw [helements, elements_ofGeoTransform, hgeo]
      simp [hsame, hlike hu, hlike hv, hlike hw]
    change HeldMatrix.equalWithin 0 false (.stored t.matrix) (.stored _) = true
    rw [HeldMatrix.equalWithin_iff_relatedBy]
    exact ⟨ht.numRow, ht.numCol, HeldMatrix.all_zip_iff.mp hcells⟩

/-- Moved into a transform, a matrix keeps its storage only if it is flat. -/
theorem canonical_toStored_iff {m : HeldMatrix Float} (h : ofMatrix m.toStored = .ok t)
    (ht : t.PlanarAffine) :
    t.matrix.Canonical ↔ ¬ ∃ f, m = .flat f ∨ m = .stored (.flat f) := by
  have hmatrix : t.matrix = m.toStored := matrix_of_ofMatrix h
  constructor
  · rintro hcanonical ⟨f, hm⟩
    have hflat : t.matrix = .flat f := by
      rw [hmatrix]
      rcases hm with rfl | rfl
      · rfl
      · rfl
    exact ht.not_canonical_flat hflat hcanonical
  · intro hflat
    rw [hmatrix]
    cases m with
    | stored s =>
      cases s with
      | small n hn b => trivial
      | flat f => exact absurd ⟨f, .inr rfl⟩ hflat
    | square n s => exact StoredMatrix.canonical_toStored_square s
    | flat f => exact absurd ⟨f, .inl rfl⟩ hflat
    | table _ => exact StoredMatrix.canonical_copy _
    | foreign _ => exact StoredMatrix.canonical_copy _

/-- A transform has coefficients exactly if it is an affine one of the plane and its matrix is held
in the storage that its shape asks for; a transform made of them acts as it does, and coefficients
that a transform is made of are given back. The storage is all that is missing otherwise: the
coefficients of a flat matrix would do the same. Only a flat matrix that is moved in makes such a
transform, no copy, product or inverse. -/
theorem geoTransform_spec (t : Projective Float) (h : t.matrix.Consistent) :
    ((∃ g, t.toGeoTransform? = some g) ↔ t.PlanarAffine ∧ t.matrix.Canonical) ∧
    (∀ g, t.toGeoTransform? = some g → t.ActsAs (ofGeoTransform g)) ∧
    (∀ g, t = ofGeoTransform g → t.toGeoTransform? = some g) ∧
    (t.PlanarAffine →
      (∃ g, t.ActsAs (ofGeoTransform g)) ∧
      (∀ m : HeldMatrix Float, ofMatrix m.toStored = .ok t →
        (t.toGeoTransform? = none ↔ ∃ f, m = .flat f ∨ m = .stored (.flat f))) ∧
      ∀ (m : HeldMatrix Float) (u v : Projective Float),
        ofMatrix m.copy = .ok t ∨ u.andThen v = .ok t ∨ u.inverse = .ok t →
          ∃ g, t.toGeoTransform? = some g) := by
  refine ⟨exists_toGeoTransform?_iff, ?_, ?_, fun ht => ⟨⟨_, actsAs_ofGeoTransform h ht⟩, ?_, ?_⟩⟩
  · intro g hg
    obtain ⟨ht, -, rfl⟩ := toGeoTransform?_eq_some_iff.mp hg
    exact actsAs_ofGeoTransform h ht
  · rintro g rfl
    exact toGeoTransform?_eq_some_iff.mpr ⟨planarAffine_ofGeoTransform g, trivial, rfl⟩
  · intro m hm
    rw [← not_iff_not, ← ne_eq, Option.ne_none_iff_exists', exists_toGeoTransform?_iff,
      canonical_toStored_iff hm ht]
    exact and_iff_right ht
  · rintro m u v hobtained
    refine exists_toGeoTransform?_iff.mpr ⟨ht, ?_⟩
    rcases hobtained with hcopy | hproduct | hinverse
    · rw [matrix_of_ofMatrix hcopy]
      exact StoredMatrix.canonical_copy m
    · obtain ⟨product, hmul, hv⟩ := bind_eq_ok.mp hproduct
      cases hv
      exact StoredMatrix.canonical_mul hmul
    · obtain ⟨inverted, hinverted, hv⟩ := bind_eq_ok.mp hinverse
      cases hv
      exact StoredMatrix.canonical_inverse hinverted

/-- A scaled and shifted raster whose matrix is flat. -/
theorem geoTransform_spec_flat :
    let m : HeldMatrix Float := .flat ⟨3, 3, #[2, 0, 5, 0, 3, 7, 0, 0, 1]⟩
    ∃ t, ofMatrix m.toStored = .ok t ∧ t.PlanarAffine ∧ t.toGeoTransform? = none ∧
      ∃ g, t.ActsAs (ofGeoTransform g) := by
  intro m
  have ht : PlanarAffine (⟨m.toStored⟩ : Projective Float) := by decide +kernel
  obtain ⟨-, -, -, hplanar⟩ := geoTransform_spec ⟨m.toStored⟩ rfl
  obtain ⟨hacts, hmoved, -⟩ := hplanar ht
  exact ⟨_, rfl, ht, (hmoved m rfl).mpr ⟨_, .inl rfl⟩, hacts⟩

end Projective

end Georeferencing
