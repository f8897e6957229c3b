import Georeferencing.Proofs.Matrix.Copies
import Georeferencing.Proofs.Matrix.Product
import Georeferencing.Proofs.Matrix.Solve

/-! # Solutions of linear systems

What solving returns is the one solution of the system. The rows are compared before anything else,
so that a mismatch is reported whatever the matrix; after that the only failure is a matrix that
elimination can not reduce to the identity. A matrix that has no solution, or more than one, is
always among these.
-/

namespace Georeferencing

namespace StoredMatrix

section Arithmetic

variable {α : Type} [Scalar α] {a : StoredMatrix α} {b : HeldMatrix α}

/-- The rows are compared first, in any arithmetic. -/
theorem solve_mismatched (h : b.numRow ≠ a.numRow) :
    a.solve b = .error (.mismatchedSize a.numRow b.numRow b.numCol) := by
  have hrows : b.checkRows a.numRow = .error (.mismatchedSize a.numRow b.numRow b.numCol) :=
    if_neg h
  unfold solve
  split
  · next hn m => exact congrArg (· >>= fun _ => _) hrows
  · exact congrArg (· >>= fun _ => _) hrows

theorem rows_of_solve {x : StoredMatrix α} (h : a.solve b = .ok x) : b.numRow = a.numRow := by
  by_contra hrows
  rw [solve_mismatched hrows] at h
  cases h

omit [Scalar α] in
theorem ofElements_of_size {r c : ℕ} {elements : Array α} (h : elements.size = r * c) :
    ofElements r c elements = .ok (ofBlock ⟨⟨elements, h⟩⟩) := by
  rw [ofElements, Block.ofElements?, dif_pos h]

end Arithmetic

end StoredMatrix

variable {K : Type} [Field K] [LinearOrder K]

/-- A copy of a matrix that lists all its coefficients is that matrix. -/
theorem HeldMatrix.copy_eq_ofMatrix {m : HeldMatrix K} {r c : ℕ} (h : m.Complete)
    (hr : m.numRow = r) (hc : m.numCol = c) : m.copy = .ofMatrix (m.toMatrix r c) := by
  have hrow : m.copy.numRow = r := (numRow_copy m).trans hr
  have hcol : m.copy.numCol = c := (numCol_copy m).trans hc
  have hread : m.copy.toMatrix r c = m.toMatrix r c := by
    have helements : m.copy.elements = m.elements := elements_copy_of_complete h
    rw [StoredMatrix.toMatrix, toMatrix, helements, hcol, hc]
  rw [(StoredMatrix.canonical_copy m).eq_ofMatrix hrow hcol, hread]

namespace StoredMatrix

variable {a x : StoredMatrix K} {b y : HeldMatrix K}

/-- With matching rows there is one cause of failure. -/
theorem solve_error (hb : b.Complete) (hrows : b.numRow = a.numRow) {e : MatrixError}
    (h : a.solve b = .error e) : e = .nonInvertible := by
  unfold solve at h
  split at h
  · next hn m =>
    have hsize : (b.elements.map (· / m 0 0)).size = 1 * b.numCol := by
      rw [Array.size_map, hb, hrows]
      rfl
    rw [solve1_eq hrows, ofElements_of_size hsize] at h
    split at h
    · cases h
      rfl
    · cases h
  · rw [HeldMatrix.solve_eq hrows] at h
    split at h
    · split at h
      · cases h
      · cases h
        rfl
    · cases h
      rfl

variable [IsStrictOrderedRing K]

theorem exists_solve_iff (hb : b.Complete) (hrows : b.numRow = a.numRow) :
    (∃ x, a.solve b = .ok x) ↔ ¬ (HeldMatrix.stored a).EliminationFails := by
  rw [← solve_refused_iff hrows]
  cases h : a.solve b with
  | ok x => simp
  | error e => simp [solve_error hb hrows h]

/-- What solving returns comes with a left inverse of the matrix, which is therefore square. -/
theorem solve_inverse (h : a.solve b = .ok x) :
    a.numCol = a.numRow ∧ ∃ e : Matrix (Fin a.numRow) (Fin a.numRow) K,
      e * a.toMatrix a.numRow a.numRow = 1 ∧ x = ofMatrix (e * b.toMatrix a.numRow b.numCol) := by
  have hrows := rows_of_solve h
  refine ⟨?_, solve_ok hrows h⟩
  by_contra hshape
  have hrefused := (solve_refused_iff hrows).mpr (Or.inl hshape)
  rw [hrefused] at h
  cases h

/-- The solution solves the system. -/
theorem mul_solution (hb : b.Complete) (h : a.solve b = .ok x) : a.IsProduct x b.copy := by
  obtain ⟨hsquare, e, he, rfl⟩ := solve_inverse h
  have hrow : (ofMatrix (e * b.toMatrix a.numRow b.numCol)).numRow = a.numRow := numRow_ofBlock _
  have hcol : (ofMatrix (e * b.toMatrix a.numRow b.numCol)).numCol = b.numCol := numCol_ofBlock _
  rw [isProduct_iff, mul_eq a _ rfl hsquare hrow hcol, toMatrix_ofMatrix, ← Matrix.mul_assoc,
    mul_eq_one_comm.mp he, Matrix.one_mul, HeldMatrix.copy_eq_ofMatrix hb (rows_of_solve h) rfl]

/-- What solves the system is the solution. -/
theorem eq_solution (hb : b.Complete) (h : a.solve b = .ok x) (hy : y.Complete)
    (hproduct : (HeldMatrix.stored a).product y = .ok b.copy) : y.copy = x := by
  have hrows := rows_of_solve h
  obtain ⟨hsquare, e, he, rfl⟩ := solve_inverse h
  have hfits : y.numRow = a.numCol := by
    by_contra hfits
    rw [HeldMatrix.product_mismatched (.stored a) y hfits] at hproduct
    cases hproduct
  have hwidth : y.numCol = b.numCol := by
    obtain ⟨p, hp, -, -, hcol⟩ := HeldMatrix.product_fits (.stored a) y hfits
    cases hp.symm.trans hproduct
    exact hcol.symm.trans (HeldMatrix.numCol_copy b)
  have hsystem : a.toMatrix a.numRow a.numRow * y.toMatrix a.numRow b.numCol =
      b.toMatrix a.numRow b.numCol := by
    have hform := HeldMatrix.product_eq_ofMatrix (r := a.numRow) (.stored a) y rfl hsquare
      (hfits.trans hsquare) hwidth
    rw [hproduct, HeldMatrix.copy_eq_ofMatrix hb hrows rfl] at hform
    have hread := congrArg (·.toMatrix a.numRow b.numCol) (Except.ok.inj hform)
    rw [toMatrix_ofMatrix, toMatrix_ofMatrix] at hread
    exact hread.symm
  rw [HeldMatrix.copy_eq_ofMatrix hy (hfits.trans hsquare) hwidth, ← hsystem, ← Matrix.mul_assoc,
    he, Matrix.one_mul]

/-- A matrix that is not square or has determinant zero is refused. -/
theorem solve_singular (hb : b.Complete) (hrows : b.numRow = a.numRow)
    (h : a.numRow ≠ a.numCol ∨ (a.toMatrix a.numRow a.numRow).det = 0) :
    a.solve b = .error .nonInvertible := by
  cases hx : a.solve b with
  | error e => rw [solve_error hb hrows hx]
  | ok x =>
    obtain ⟨hsquare, e, he, -⟩ := solve_inverse hx
    rcases h with hshape | hdet
    · exact absurd hsquare.symm hshape
    · have hone := congrArg Matrix.det he
      rw [Matrix.det_mul, hdet, mul_zero, Matrix.det_one] at hone
      exact absurd hone zero_ne_one

/-- Solving returns the one solution of the system, in the shape that the operands ask for. A
mismatch of the rows is reported first; otherwise the only failure is that the matrix is not
invertible. It is reported for every singular matrix, and just where the matrix is not square or a
pivot is negligible. -/
theorem solve_one_solution (a : StoredMatrix K) (b : HeldMatrix K) (hb : b.Complete) :
    (∀ x, a.solve b = .ok x →
      a.numRow = a.numCol ∧ x.numRow = a.numCol ∧ x.numCol = b.numCol ∧
        a.IsProduct x b.copy ∧
        ∀ y : HeldMatrix K, y.Complete → (HeldMatrix.stored a).product y = .ok b.copy →
          y.numRow = x.numRow ∧ y.numCol = x.numCol ∧ y.elements = x.elements) ∧
    (a.solve b = .error (.mismatchedSize a.numRow b.numRow b.numCol) ↔ b.numRow ≠ a.numRow) ∧
    (∀ e, a.solve b = .error e →
      e = .mismatchedSize a.numRow b.numRow b.numCol ∨ e = .nonInvertible) ∧
    (b.numRow = a.numRow → a.numRow ≠ a.numCol ∨ (a.toMatrix a.numRow a.numRow).det = 0 →
      a.solve b = .error .nonInvertible) ∧
    ((∃ x, a.solve b = .ok x) ↔
      b.numRow = a.numRow ∧ ¬ (HeldMatrix.stored a).EliminationFails) := by
  refine ⟨?_, ?_, ?_, solve_singular hb, ?_⟩
  · intro x hx
    obtain ⟨hsquare, e, -, hform⟩ := solve_inverse hx
    refine ⟨hsquare.symm, ?_, ?_, mul_solution hb hx, ?_⟩
    · rw [hform, hsquare]
      exact numRow_ofBlock _
    · rw [hform]
      exact numCol_ofBlock _
    · intro y hy hproduct
      rw [← eq_solution hb hx hy hproduct]
      exact ⟨(HeldMatrix.numRow_copy y).symm, (HeldMatrix.numCol_copy y).symm,
        (HeldMatrix.elements_copy_of_complete hy).symm⟩
  · refine ⟨fun h hrows => ?_, solve_mismatched⟩
    cases solve_error hb hrows h
  · intro e h
    by_cases hrows : b.numRow = a.numRow
    · exact .inr (solve_error hb hrows h)
    · rw [solve_mismatched hrows] at h
      cases h
      exact .inl rfl
  · constructor
    · rintro ⟨x, hx⟩
      have hrows := rows_of_solve hx
      exact ⟨hrows, (exists_solve_iff hb hrows).mp ⟨x, hx⟩⟩
    · rintro ⟨hrows, haccepted⟩
      exact (exists_solve_iff hb hrows).mpr haccepted

/-- A system of three rows whose first pivot is found further down, and what is refused: rows that
do not match, a singular matrix and one that is not square. -/
theorem solve_one_solution_three :
    let a : StoredMatrix ℚ := .small 3 isSmall_three (.of3 0 2 1 1 0 0 3 0 1)
    let singular : StoredMatrix ℚ := .small 2 (by decide) (.of2 1 2 2 4)
    let wide : StoredMatrix ℚ := .flat ⟨2, 3, #[1, 0, 0, 0, 1, 0]⟩
    let b : HeldMatrix ℚ := .flat ⟨3, 2, #[4, 1, 1, 0, 5, 2]⟩
    let column : HeldMatrix ℚ := .flat ⟨2, 1, #[1, 1]⟩
    let x : StoredMatrix ℚ := .flat ⟨3, 2, #[1, 0, 1, -1 / 2, 2, 2]⟩
    b.Complete ∧ column.Complete ∧ a.solve b = .ok x ∧ a.IsProduct x b.copy ∧
      singular.solve b = .error (.mismatchedSize 2 3 2) ∧
      singular.solve column = .error .nonInvertible ∧
      wide.solve column = .error .nonInvertible := by
  intro a singular wide b column x
  have hb : b.Complete := rfl
  have hcolumn : column.Complete := rfl
  have hx : a.solve b = .ok x := by decide +kernel
  have hsingular : (singular.toMatrix 2 2).det = 0 := by
    rw [toMatrix_small, Matrix.det_fin_two]
    decide +kernel
  exact ⟨hb, hcolumn, hx, ((solve_one_solution a b hb).1 x hx).2.2.2.1,
    (solve_one_solution singular b hb).2.1.mpr (by decide),
    (solve_one_solution singular column hcolumn).2.2.2.1 rfl (.inr hsingular),
    (solve_one_solution wide column hcolumn).2.2.2.1 rfl (.inl (by decide))⟩

end StoredMatrix

end Georeferencing
