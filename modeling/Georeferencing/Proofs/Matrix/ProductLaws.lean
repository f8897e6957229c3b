import Georeferencing.Proofs.Matrix.Solutions
import Georeferencing.Proofs.Matrix.Storage

/-! # Laws of the product

Matrices of any shape, whatever holds them, are multiplied like the arrows of a category: a product
exists just where the shapes fit, it does not depend on how three factors are grouped, not even in
the storage of the result, and identities may be left out. Transposing reverses a product. The laws
are those of matrix algebra, once a matrix that is listed row by row is read as one.
-/

namespace Georeferencing

section Arithmetic

variable {α : Type} [Scalar α] {a b : HeldMatrix α} {x : StoredMatrix α} {r c : ℕ}

/-- Shapes that do not fit are the only failure. -/
theorem HeldMatrix.product_eq_error {e : MatrixError} : a.product b = .error e ↔
    b.numRow ≠ a.numCol ∧ .mismatchedSize a.numCol b.numRow b.numCol = e := by
  by_cases h : b.numRow = a.numCol
  · obtain ⟨x, hx, -⟩ := product_fits a b h
    simp [hx, h]
  · simp [product_mismatched a b h, h]

theorem HeldMatrix.fits_of_product (h : a.product b = .ok x) : b.numRow = a.numCol := by
  by_contra hfits
  rw [product_mismatched a b hfits] at h
  cases h

/-- The transpose. The types of this library have one of their own; what is held by another type is
copied first. -/
def HeldMatrix.transpose : HeldMatrix α → HeldMatrix α
  | stored m => stored m.transpose
  | square n m => square n m.transpose
  | flat m => flat m.transpose
  | table m => stored (table m).copy.transpose
  | foreign m => stored (foreign m).copy.transpose

namespace StoredMatrix

theorem numRow_transpose (m : StoredMatrix α) : m.transpose.numRow = m.numCol := by
  cases m with
  | small n hn b => rfl
  | flat f => rfl

theorem numCol_transpose (m : StoredMatrix α) : m.transpose.numCol = m.numRow := by
  cases m with
  | small n hn b => rfl
  | flat f => rfl

end StoredMatrix

theorem FlatMatrix.toMatrix_transpose (m : FlatMatrix α) :
    RowMajor.toMatrix m.numRow m.transpose.elements m.numCol m.numRow =
      (RowMajor.toMatrix m.numCol m.elements m.numRow m.numCol).transpose := by
  funext i j
  rw [transpose, ofBlock, Block.rowMajor_toMatrix, Block.toMatrix_apply, Block.entry_transpose,
    toBlock, ← Block.toMatrix_apply, Block.toMatrix_ofArray, Matrix.transpose_apply]

omit [Scalar α] in
theorem Block.toMatrix_transpose (b : Block r c α) :
    b.transpose.toMatrix = b.toMatrix.transpose := by
  funext i j
  exact b.entry_transpose i j

theorem StoredMatrix.toMatrix_transpose {m : StoredMatrix α} (hr : m.numRow = r)
    (hc : m.numCol = c) : m.transpose.toMatrix c r = (m.toMatrix r c).transpose := by
  cases m with
  | small n hn b =>
    obtain rfl : n = r := hr
    obtain rfl : n = c := hc
    rw [transpose, toMatrix_small, toMatrix_small, Block.toMatrix_transpose]
  | flat f =>
    subst hr hc
    exact f.toMatrix_transpose

namespace HeldMatrix

theorem numRow_transpose (m : HeldMatrix α) : m.transpose.numRow = m.numCol := by
  cases m with
  | stored m => exact m.numRow_transpose
  | square n m => rfl
  | flat m => rfl
  | table m => exact (StoredMatrix.numRow_transpose _).trans (numCol_copy _)
  | foreign m => exact (StoredMatrix.numRow_transpose _).trans (numCol_copy _)

theorem numCol_transpose (m : HeldMatrix α) : m.transpose.numCol = m.numRow := by
  cases m with
  | stored m => exact m.numCol_transpose
  | square n m => rfl
  | flat m => rfl
  | table m => exact (StoredMatrix.numCol_transpose _).trans (numRow_copy _)
  | foreign m => exact (StoredMatrix.numCol_transpose _).trans (numRow_copy _)

end HeldMatrix

end Arithmetic

variable {K : Type} [Field K] [LinearOrder K] {r k c : ℕ}

theorem StoredMatrix.transpose_ofMatrix (a : Matrix (Fin r) (Fin c) K) :
    (ofMatrix a).transpose = ofMatrix a.transpose := by
  have hcanonical : (ofMatrix a).transpose.Canonical := (canonical_ofBlock _).transpose
  have hr : (ofMatrix a).numRow = r := numRow_ofBlock _
  have hc : (ofMatrix a).numCol = c := numCol_ofBlock _
  rw [hcanonical.eq_ofMatrix ((numRow_transpose _).trans hc) ((numCol_transpose _).trans hr),
    toMatrix_transpose hr hc, toMatrix_ofMatrix]

namespace HeldMatrix

variable {a b m : HeldMatrix K} {x : StoredMatrix K}

theorem toMatrix_copy (h : m.Complete) (hr : m.numRow = r) (hc : m.numCol = c) :
    m.copy.toMatrix r c = m.toMatrix r c := by
  rw [copy_eq_ofMatrix h hr hc, StoredMatrix.toMatrix_ofMatrix]

theorem toMatrix_transpose (h : m.Complete) (hr : m.numRow = r) (hc : m.numCol = c) :
    m.transpose.toMatrix c r = (m.toMatrix r c).transpose := by
  cases m with
  | stored m => exact StoredMatrix.toMatrix_transpose hr hc
  | square n m =>
    obtain rfl : n = r := hr
    obtain rfl : n = c := hc
    change RowMajor.toMatrix n m.transpose.elements.toArray n n =
      (RowMajor.toMatrix n m.elements.toArray n n).transpose
    rw [Block.rowMajor_toMatrix, Block.rowMajor_toMatrix, Block.toMatrix_transpose]
  | flat m =>
    subst hr hc
    exact m.toMatrix_transpose
  | table m =>
    rw [← toMatrix_copy h hr hc]
    exact StoredMatrix.toMatrix_transpose ((numRow_copy _).trans hr) ((numCol_copy _).trans hc)
  | foreign m =>
    rw [← toMatrix_copy h hr hc]
    exact StoredMatrix.toMatrix_transpose ((numRow_copy _).trans hr) ((numCol_copy _).trans hc)

/-- A product with a product. -/
theorem product_ofMatrix_left (p : Matrix (Fin r) (Fin k) K) (hr : b.numRow = k)
    (hc : b.numCol = c) : (stored (.ofMatrix p)).product b =
      .ok (.ofMatrix (p * b.toMatrix k c)) := by
  rw [product_eq_ofMatrix (stored (.ofMatrix p)) b (StoredMatrix.numRow_ofBlock _)
    (StoredMatrix.numCol_ofBlock _) hr hc]
  exact congrArg (fun q => Except.ok (StoredMatrix.ofMatrix (q * _)))
    (StoredMatrix.toMatrix_ofMatrix p)

theorem product_ofMatrix_right (p : Matrix (Fin k) (Fin c) K) (hr : a.numRow = r)
    (hc : a.numCol = k) : a.product (stored (.ofMatrix p)) =
      .ok (.ofMatrix (a.toMatrix r k * p)) := by
  rw [product_eq_ofMatrix a (stored (.ofMatrix p)) hr hc (StoredMatrix.numRow_ofBlock _)
    (StoredMatrix.numCol_ofBlock _)]
  exact congrArg (fun q => Except.ok (StoredMatrix.ofMatrix (_ * q)))
    (StoredMatrix.toMatrix_ofMatrix p)

/-- Both ways to multiply three matrices succeed together, and give the same matrix in the same
storage. -/
theorem product_assoc (a b c : HeldMatrix K) (x : StoredMatrix K) :
    (∃ ab, a.product b = .ok ab ∧ (stored ab).product c = .ok x) ↔
      ∃ bc, b.product c = .ok bc ∧ a.product (stored bc) = .ok x := by
  by_cases hab : b.numRow = a.numCol
  · by_cases hbc : c.numRow = b.numCol
    · rw [product_eq_ofMatrix a b rfl rfl hab rfl, product_eq_ofMatrix b c hab rfl hbc rfl]
      simp only [Except.ok.injEq, exists_eq_left', product_ofMatrix_left _ hbc rfl,
        product_ofMatrix_right _ rfl rfl, Matrix.mul_assoc]
    · apply iff_of_false
      · rintro ⟨ab, hproduct, h⟩
        rw [product_eq_ofMatrix a b rfl rfl hab rfl] at hproduct
        cases hproduct
        exact hbc ((fits_of_product h).trans (StoredMatrix.numCol_ofBlock _))
      · rintro ⟨bc, hproduct, -⟩
        exact hbc (fits_of_product hproduct)
  · apply iff_of_false
    · rintro ⟨ab, hproduct, -⟩
      exact hab (fits_of_product hproduct)
    · rintro ⟨bc, hproduct, h⟩
      rw [product_eq_ofMatrix b c rfl rfl (fits_of_product hproduct) rfl] at hproduct
      cases hproduct
      exact hab ((StoredMatrix.numRow_ofBlock _).symm.trans (fits_of_product h))

theorem identity_product (h : m.Complete) :
    (stored (.identity m.numRow)).product m = .ok m.copy := by
  rw [StoredMatrix.identity_eq, product_ofMatrix_left _ rfl rfl, Matrix.one_mul,
    copy_eq_ofMatrix h rfl rfl]

theorem product_identity (h : m.Complete) :
    m.product (stored (.identity m.numCol)) = .ok m.copy := by
  rw [StoredMatrix.identity_eq, product_ofMatrix_right _ rfl rfl, Matrix.mul_one,
    copy_eq_ofMatrix h rfl rfl]

/-- Transposing reverses a product. -/
theorem product_transpose (ha : a.Complete) (hb : b.Complete) (h : a.product b = .ok x) :
    b.transpose.product a.transpose = .ok x.transpose := by
  have hfits := fits_of_product h
  rw [product_eq_ofMatrix a b rfl rfl hfits rfl] at h
  cases h
  rw [product_eq_ofMatrix b.transpose a.transpose (numRow_transpose b)
      ((numCol_transpose b).trans hfits) (numRow_transpose a) (numCol_transpose a),
    toMatrix_transpose hb hfits rfl, toMatrix_transpose ha rfl rfl, StoredMatrix.transpose_ofMatrix,
    Matrix.transpose_mul]

variable (K)

/-- A product of two matrices of any types exists if and only if their shapes fit. In exact
arithmetic it is associative up to the storage of the result, the identities of both sizes are
neutral, and transposing reverses it. -/
theorem product_laws :
    (∀ {α : Type} [Scalar α] (a b : HeldMatrix α) (e : MatrixError), a.product b = .error e ↔
      b.numRow ≠ a.numCol ∧ .mismatchedSize a.numCol b.numRow b.numCol = e) ∧
    (∀ (a b c : HeldMatrix K) (x : StoredMatrix K),
      (∃ ab, a.product b = .ok ab ∧ (stored ab).product c = .ok x) ↔
        ∃ bc, b.product c = .ok bc ∧ a.product (stored bc) = .ok x) ∧
    (∀ a : HeldMatrix K, a.Complete → ∃ x, (stored (.identity a.numRow)).product a = .ok x ∧
      a.product (stored (.identity a.numCol)) = .ok x ∧
      x.numRow = a.numRow ∧ x.numCol = a.numCol ∧ x.elements = a.elements) ∧
    ∀ a b : HeldMatrix K, a.Complete → b.Complete → ∀ x, a.product b = .ok x →
      b.transpose.product a.transpose = .ok x.transpose := by
  refine ⟨?_, ?_, ?_, ?_⟩
  · intro α _ a b e
    exact product_eq_error
  · intro a b c x
    exact product_assoc a b c x
  · intro a ha
    exact ⟨a.copy, identity_product ha, product_identity ha, numRow_copy a, numCol_copy a,
      elements_copy_of_complete ha⟩
  · intro a b ha hb x h
    exact product_transpose ha hb h

/-- A row, a table and a matrix from outside; the product of the row and its transpose is small
enough to be held as a block. -/
theorem product_laws_row :
    let row : HeldMatrix ℚ := .flat ⟨1, 3, #[1, 2, 3]⟩
    let table : HeldMatrix ℚ := .table ⟨3, 2, ⟨#v[1, 0, 2, 1, 0, 5]⟩⟩
    let outside : HeldMatrix ℚ := .foreign ⟨"Listed", 2, 1, #[4, -1], fun _ _ => .ok 0⟩
    let single : StoredMatrix ℚ := .small 1 (by decide) (.of1 3)
    row.Complete ∧ table.Complete ∧
      row.product (stored single) = .error (.mismatchedSize 3 1 1) ∧
      row.product table = .ok (.flat ⟨1, 2, #[5, 17]⟩) ∧
      (∃ bc, table.product outside = .ok bc ∧ row.product (stored bc) = .ok single) ∧
      (∃ x, (stored (.identity 3)).product table = .ok x ∧
        table.product (stored (.identity 2)) = .ok x ∧ x.elements = table.elements) ∧
      table.transpose.product row.transpose = .ok (.flat ⟨2, 1, #[5, 17]⟩) := by
  intro row table outside single
  have hrow : row.Complete := rfl
  have htable : table.Complete := rfl
  have hproduct : row.product table = .ok (.flat ⟨1, 2, #[5, 17]⟩) := by decide +kernel
  have hgrouped : (stored (.flat ⟨1, 2, #[5, 17]⟩)).product outside = .ok single := by
    decide +kernel
  obtain ⟨hfails, hassoc, hneutral, htranspose⟩ := product_laws ℚ
  obtain ⟨x, hleft, hright, -, -, helements⟩ := hneutral table htable
  exact ⟨hrow, htable, (hfails row (stored single) _).mpr ⟨by decide, rfl⟩, hproduct,
    (hassoc row table outside single).mp ⟨_, hproduct, hgrouped⟩,
    ⟨x, hleft, hright, helements⟩, htranspose row table hrow htable _ hproduct⟩

end HeldMatrix

end Georeferencing
