import Mathlib.LinearAlgebra.Matrix.Adjugate
import Georeferencing.Proofs.Matrix.Elimination
import Georeferencing.Proofs.Matrix.Storage

/-! # Inverses

The closed formulas of the smallest sizes are the adjugate over the determinant; elimination finds a
left inverse of any size. A left inverse of a square matrix is a right inverse too, so the result is
the same in every storage.
-/

namespace Georeferencing

variable {K : Type} [Field K] {n : ℕ}

/-- The adjugate over a determinant that is not zero is the inverse. -/
theorem adjugate_over_det_mul (a : Matrix (Fin n) (Fin n) K) (h : a.det ≠ 0) :
    a.det⁻¹ • a.adjugate * a = 1 := by
  rw [Matrix.smul_mul, Matrix.adjugate_mul, smul_smul, inv_mul_cancel₀ h, one_smul]

namespace Square

variable [LinearOrder K]

theorem determinant2_eq (m : Square 2 K) : m.determinant2 = m.toMatrix.det := by
  rw [Matrix.det_fin_two]
  rfl

theorem determinant3_eq (m : Square 3 K) : m.determinant3 = m.toMatrix.det := by
  simp only [determinant3, Matrix.det_fin_three, Block.toMatrix_apply]
  ring

/-- The expansion along the first row with the cofactors that the inverse of size three uses. -/
theorem cofactors3_eq (m : Square 3 K) :
    m 0 0 * (m 1 1 * m 2 2 - m 1 2 * m 2 1) + m 0 1 * (m 1 2 * m 2 0 - m 1 0 * m 2 2)
      + m 0 2 * (m 1 0 * m 2 1 - m 1 1 * m 2 0) = m.toMatrix.det := by
  rw [← determinant3_eq, determinant3]
  ring

theorem inverse1?_mul {m x : Square 1 K} (h : m.inverse1? = some x) :
    x.toMatrix * m.toMatrix = 1 := by
  rw [inverse1?] at h
  split at h
  · cases h
  · next hz =>
    cases h
    have hm : m 0 0 ≠ 0 := by simpa using hz
    ext i j
    rw [Subsingleton.elim i 0, Subsingleton.elim j 0, Matrix.mul_apply, Fin.sum_univ_one]
    exact one_div_mul_cancel hm

variable [IsStrictOrderedRing K]

theorem magnitudeProduct_nonneg (m : Square n K) : 0 ≤ m.magnitudeProduct := by
  rw [magnitudeProduct, Exact.product_eq]
  apply List.prod_nonneg
  intro a ha
  rcases List.mem_map.mp ha with ⟨j, -, rfl⟩
  exact m.columnMagnitude_nonneg j

theorem det_ne_zero {m : Square n K}
    (h : ¬ Scalar.vanishesBeside m.toMatrix.det m.magnitudeProduct = true) :
    m.toMatrix.det ≠ 0 :=
  Exact.ne_zero_of_vanishesBeside m.magnitudeProduct_nonneg h

theorem inverse2?_mul {m x : Square 2 K} (h : m.inverse2? = some x) :
    x.toMatrix * m.toMatrix = 1 := by
  simp only [inverse2?, determinant2_eq] at h
  split at h
  · cases h
  · next hv =>
    cases h
    rw [← adjugate_over_det_mul _ (det_ne_zero hv)]
    congr 1
    ext i j
    rw [Matrix.adjugate_fin_two]
    fin_cases i <;> fin_cases j <;> exact div_eq_inv_mul _ _

theorem inverse3?_mul {m x : Square 3 K} (h : m.inverse3? = some x) :
    x.toMatrix * m.toMatrix = 1 := by
  simp only [inverse3?, cofactors3_eq] at h
  split at h
  · cases h
  · next hv =>
    cases h
    rw [← adjugate_over_det_mul _ (det_ne_zero hv)]
    congr 1
    ext i j
    rw [Matrix.smul_apply, smul_eq_mul, ← div_eq_inv_mul, Matrix.adjugate_fin_three]
    fin_cases i <;> fin_cases j <;> refine congrArg (· / m.toMatrix.det) ?_ <;> simp <;> ring

theorem eliminationInverse?_mul {m x : Square n K} (h : m.eliminationInverse? = some x) :
    x.toMatrix * m.toMatrix = 1 := by
  rcases LinearSystem.solve_spec h with ⟨e, he, hx⟩
  rw [hx, Block.toMatrix_diagonal, Matrix.mul_one, he]

/-- Whichever way an inverse of a square block is found, it is a left inverse. -/
theorem inverse?_mul {m x : Square n K} (h : m.inverse? = some x) :
    x.toMatrix * m.toMatrix = 1 := by
  unfold inverse? at h
  split at h
  · exact inverse1?_mul h
  · exact inverse2?_mul h
  · exact inverse3?_mul h
  · exact eliminationInverse?_mul h

end Square

namespace StoredMatrix

variable [LinearOrder K]

theorem inverse_error {m : StoredMatrix K} {e : MatrixError} (h : m.inverse = .error e) :
    e = .nonInvertible := by
  cases m with
  | small n hn a =>
    rw [inverse] at h
    split at h
    · cases h
    · cases h
      rfl
  | flat a =>
    rw [inverse, FlatMatrix.inverse] at h
    split at h
    · split at h
      · cases h
      · cases h
        rfl
    · cases h
      rfl

theorem exists_inverse_iff {m : StoredMatrix K} :
    (∃ x, m.inverse = .ok x) ↔ m.inverse ≠ .error .nonInvertible := by
  cases h : m.inverse with
  | ok x => simp
  | error e => simp [inverse_error h]

theorem exists_inverse_congr {a b : StoredMatrix K}
    (h : a.inverse = .error .nonInvertible ↔ b.inverse = .error .nonInvertible) :
    (∃ x, a.inverse = .ok x) ↔ ∃ y, b.inverse = .ok y := by
  rw [exists_inverse_iff, exists_inverse_iff]
  exact not_congr h

theorem mul_eq_identity {a b : StoredMatrix K} (har : a.numRow = n) (hac : a.numCol = n)
    (hbr : b.numRow = n) (hbc : b.numCol = n) (h : a.toMatrix n n * b.toMatrix n n = 1) :
    a.mul (.stored b) = .ok (.identity n) := by
  rw [mul_eq a b har hac hbr hbc, h, identity_eq]

variable [IsStrictOrderedRing K]

theorem inverse_ok {m x : StoredMatrix K} (h : m.inverse = .ok x) :
    m.numRow = m.numCol ∧ x.numRow = m.numRow ∧ x.numCol = m.numRow ∧
      x.toMatrix m.numRow m.numRow * m.toMatrix m.numRow m.numRow = 1 := by
  cases m with
  | small n hn a =>
    rw [inverse] at h
    split at h
    · next b hb =>
      cases h
      have hmul := Square.inverse?_mul hb
      rw [← toMatrix_small hn, ← toMatrix_small hn] at hmul
      exact ⟨rfl, rfl, rfl, hmul⟩
    · cases h
  | flat a =>
    rw [inverse, FlatMatrix.inverse] at h
    split at h
    · next hsquare =>
      split at h
      · next b hb =>
        cases h
        have hmul := Square.eliminationInverse?_mul hb
        rw [Block.toMatrix_ofArray, ← toMatrix_ofBlock] at hmul
        have hread : (flat a).toMatrix a.numRow a.numRow =
            RowMajor.toMatrix a.numRow a.elements a.numRow a.numRow := by
          rw [toMatrix, numCol, ← hsquare]
          rfl
        rw [← hread] at hmul
        exact ⟨hsquare, numRow_ofBlock b, numCol_ofBlock b, hmul⟩
      · cases h
    · cases h

/-- An inverse is only given to square matrices, and it is one on both sides. Matrices that are not
square or have determinant zero are refused, and there is no other reason to refuse. -/
theorem inverse_spec (m : StoredMatrix K) :
    (∀ x, m.inverse = .ok x →
      m.numRow = m.numCol ∧ m.mul (.stored x) = .ok (.identity m.numRow) ∧
        x.mul (.stored m) = .ok (.identity m.numRow)) ∧
    (m.numRow ≠ m.numCol ∨ (m.toMatrix m.numRow m.numRow).det = 0 →
      m.inverse = .error .nonInvertible) ∧
    ∀ e, m.inverse = .error e → e = .nonInvertible := by
  refine ⟨?_, ?_, fun e he => inverse_error he⟩
  · intro x hx
    rcases inverse_ok hx with ⟨hsquare, hrow, hcol, hleft⟩
    have hright := mul_eq_one_comm.mp hleft
    exact ⟨hsquare, mul_eq_identity rfl hsquare.symm hrow hcol hright,
      mul_eq_identity hrow hcol rfl hsquare.symm hleft⟩
  · intro hm
    cases hx : m.inverse with
    | error e => rw [inverse_error hx]
    | ok x =>
      rcases inverse_ok hx with ⟨hsquare, -, -, hleft⟩
      rcases hm with hm | hm
      · exact absurd hsquare hm
      · have hdet := congrArg Matrix.det hleft
        rw [Matrix.det_mul, hm, mul_zero, Matrix.det_one] at hdet
        exact absurd hdet zero_ne_one

theorem inverse_spec_flat_four :
    let m : StoredMatrix ℚ := .flat ⟨4, 4, #[0, 1, 0, 0, 2, 0, 0, 1, 0, 0, 4, 0, 0, 0, 0, 1]⟩
    let x : StoredMatrix ℚ :=
      .small 4 (by decide) ⟨#v[0, 1/2, 0, -1/2, 1, 0, 0, 0, 0, 0, 1/4, 0, 0, 0, 0, 1]⟩
    let wide : StoredMatrix ℚ := .flat ⟨1, 2, #[3, 5]⟩
    m.inverse = .ok x ∧ m.mul (.stored x) = .ok (.identity 4) ∧
      x.mul (.stored m) = .ok (.identity 4) ∧ wide.inverse = .error .nonInvertible := by
  intro m x wide
  have h : m.inverse = .ok x := by decide +kernel
  rcases (inverse_spec m).1 x h with ⟨-, hright, hleft⟩
  exact ⟨h, hright, hleft, (inverse_spec wide).2.1 (Or.inl (by decide))⟩

end StoredMatrix

end Georeferencing
