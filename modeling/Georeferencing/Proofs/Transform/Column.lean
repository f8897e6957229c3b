import Georeferencing.Proofs.Double
import Georeferencing.Proofs.Transform.Pointwise

/-! # Transforms as products with a column

A point becomes a column by a trailing one, and a projective transform is the product of its matrix
with that column: the ordinates of the image are the coordinates of the product for an affine
matrix, and these divided by the last one otherwise. The loop over a point and the loop over the
columns of a matrix add the same terms in the same order, so this holds to the last bit wherever
factors may be exchanged and one is neutral; both sums start from minus zero, which therefore need
not be neutral. In exact arithmetic the last coordinate of an affine matrix is one, and dividing by
it changes nothing.
-/

namespace Georeferencing

section Arithmetic

variable {α : Type} [Scalar α] {n m : ℕ}

/-- The ordinates of a point and a one, as a matrix with a single column. -/
def homogeneousColumn (point : List α) : StoredMatrix α :=
  .ofFn (point.length + 1) 1 fun i _ => (point ++ [1]).getD i 0

/-- The first `m` coordinates of a column, divided by the one behind them if so asked. -/
def ofColumn (m : ℕ) (divide : Bool) (column : StoredMatrix α) : List α :=
  (List.range m).map fun j =>
    if divide then column.elements.getD j 0 / column.elements.getD m 0
    else column.elements.getD j 0

theorem numRow_homogeneousColumn (point : List α) :
    (homogeneousColumn point).numRow = point.length + 1 :=
  StoredMatrix.numRow_ofBlock _

theorem numCol_homogeneousColumn (point : List α) : (homogeneousColumn point).numCol = 1 :=
  StoredMatrix.numCol_ofBlock _

/-- A column lists its coefficients from the first row to the last. -/
theorem getD_column (f : Fin n → Fin 1 → α) (i : Fin n) :
    (StoredMatrix.ofFn n 1 f).elements.getD i 0 = f i 0 := by
  have hentry := (Block.ofFn f).getD_elements i 0
  rw [Block.entry_ofFn] at hentry
  rw [StoredMatrix.ofFn, StoredMatrix.elements_ofBlock, ← hentry, Fin.val_zero, Nat.add_zero,
    Nat.mul_one i.val]

namespace Projective

variable {t : Projective α} {point : List α}

/-- The product of the matrix with the column of a point. -/
def timesColumn (t : Projective α) (point : List α) : Except MatrixError (StoredMatrix α) :=
  (HeldMatrix.stored t.matrix).product (.stored (homogeneousColumn point))

/-- A batch of points is transformed by multiplying the matrix with the column of each. -/
def MultipliesColumns (t : Projective α) (n m : ℕ) : Prop :=
  ∀ (src dst : List α) (count : ℕ), count * n ≤ src.length → count * m ≤ dst.length →
    (t.applyBatch src dst count).failure? = none ∧
    (t.applyBatch src dst count).buffer.drop (count * m) = dst.drop (count * m) ∧
    ∀ k < count, ∃ column, t.timesColumn (pointAt n src k) = .ok column ∧
      column.numRow = m + 1 ∧ column.numCol = 1 ∧
      pointAt m (t.applyBatch src dst count).buffer k = ofColumn m (!t.isAffine) column

/-- The product with a column exists, and its coordinates are sums over the columns of the
matrix. -/
theorem timesColumn_eq (h : t.HasShape n m) (hp : point.length = n) :
    ∃ column, t.timesColumn point = .ok column ∧ column.numRow = m + 1 ∧ column.numCol = 1 ∧
      ∀ j : Fin (m + 1), column.elements.getD j 0 = Scalar.sum ((List.range (n + 1)).map fun k =>
        t.matrix.elements.getD (j * (n + 1) + k) 0 * (point ++ [1]).getD k 0) := by
  have hrows : (HeldMatrix.stored (homogeneousColumn point)).numRow =
      (HeldMatrix.stored t.matrix).numCol := by
    change (homogeneousColumn point).numRow = t.matrix.numCol
    rw [numRow_homogeneousColumn, hp, h.numCol]
  have hnumCol : (HeldMatrix.stored t.matrix).numCol = n + 1 := h.numCol
  have hnumRow : (HeldMatrix.stored t.matrix).numRow = m + 1 := h.numRow
  have hcols : (HeldMatrix.stored (homogeneousColumn point)).numCol = 1 :=
    numCol_homogeneousColumn point
  rw [timesColumn, HeldMatrix.product, HeldMatrix.checkRows, if_pos hrows, hnumCol, hnumRow, hcols]
  refine ⟨_, rfl, StoredMatrix.numRow_ofBlock _, StoredMatrix.numCol_ofBlock _, fun j => ?_⟩
  rw [getD_column]
  congr 1
  apply List.map_congr_left
  intro k hk
  have hlt : k < point.length + 1 := by
    rw [hp]
    exact List.mem_range.mp hk
  have hplace : k * 1 + (0 : Fin 1).val = k := by simp
  rw [hplace]
  exact congrArg _ (getD_column _ ⟨k, hlt⟩)

/-- The image of a point is read off the product with its column. -/
theorem image_eq_ofColumn (hcomm : ∀ x y : α, x * y = y * x) (hone : ∀ x : α, x * 1 = x)
    (h : t.HasShape n m) (hp : point.length = n) :
    ∃ column, t.timesColumn point = .ok column ∧ column.numRow = m + 1 ∧ column.numCol = 1 ∧
      t.image point = ofColumn m (!t.isAffine) column := by
  obtain ⟨column, hcolumn, hnumRow, hnumCol, hentry⟩ := timesColumn_eq h hp
  have hrow : ∀ j < m + 1, t.rowProduct j point = column.elements.getD j 0 := by
    intro j hj
    rw [rowProduct_eq_sum hcomm hone h hp ⟨j, hj⟩, hentry ⟨j, hj⟩]
  refine ⟨column, hcolumn, hnumRow, hnumCol, ?_⟩
  rw [image, ofColumn, h.target, hrow m (Nat.lt_succ_self m)]
  cases t.isAffine with
  | true =>
    apply List.map_congr_left
    intro j hj
    exact hrow j (Nat.lt_succ_of_lt (List.mem_range.mp hj))
  | false =>
    rw [if_neg Bool.false_ne_true, List.map_map]
    apply List.map_congr_left
    intro j hj
    rw [Function.comp_apply, hrow j (Nat.lt_succ_of_lt (List.mem_range.mp hj))]
    rfl

theorem multipliesColumns (hcomm : ∀ x y : α, x * y = y * x) (hone : ∀ x : α, x * 1 = x)
    (h : t.HasShape n m) : t.MultipliesColumns n m := by
  intro src dst count hsrc hdst
  have hmaps : Batch.Maps t.source t.target (fun point => .ok (t.image point)) t.applyBatch :=
    Batch.maps_pointwise t.length_of_image_eq
  rw [h.source, h.target] at hmaps
  have hnone : (t.applyBatch src dst count).failure? = none := by
    rw [hmaps.succeeds_iff src dst count hsrc hdst]
    exact fun k _ => ⟨_, rfl⟩
  refine ⟨hnone, hmaps.rest src dst count hsrc hdst hnone, fun k hk => ?_⟩
  obtain ⟨column, hcolumn, hnumRow, hnumCol, himage⟩ :=
    image_eq_ofColumn hcomm hone h (length_pointAt hsrc hk)
  refine ⟨column, hcolumn, hnumRow, hnumCol, ?_⟩
  rw [← himage]
  exact (Except.ok.inj (hmaps.image src dst count hsrc hdst hnone k hk)).symm

end Projective

end Arithmetic

namespace Projective

/-- In exact arithmetic the last coordinate that an affine matrix gives is one. -/
theorem timesColumn_last_of_isAffine {K : Type} [Field K] [LinearOrder K] {t : Projective K}
    {n m : ℕ} {point : List K} (h : t.HasShape n m) (haffine : t.isAffine = true)
    (hp : point.length = n) :
    ∃ column, t.timesColumn point = .ok column ∧ column.elements.getD m 0 = 1 := by
  obtain ⟨column, hcolumn, -, -, hentry⟩ := timesColumn_eq h hp
  refine ⟨column, hcolumn, ?_⟩
  calc column.elements.getD m 0
      = t.rowProduct m point :=
        (hentry (Fin.last m)).trans (rowProduct_eq_sum mul_comm mul_one h hp (Fin.last m)).symm
    _ = t.lift n m point (Fin.last m) := rowProduct_eq h hp (Fin.last m)
    _ = 1 := lift_last_of_isAffine h haffine

/-- A batch is transformed by multiplying the matrix with the column of each point, in any
arithmetic in which factors may be exchanged and one is neutral, that of doubles included. In exact
arithmetic it makes no difference to an affine transform whether the last coordinate divides the
others. -/
theorem applyBatch_columns_spec :
    (∀ {α : Type} [Scalar α], (∀ x y : α, x * y = y * x) → (∀ x : α, x * 1 = x) →
      ∀ (t : Projective α) (n m : ℕ), t.HasShape n m → t.MultipliesColumns n m) ∧
    (∀ (t : Projective Float) (n m : ℕ), t.HasShape n m → t.MultipliesColumns n m) ∧
    ∀ {K : Type} [Field K] [LinearOrder K] (t : Projective K) (n m : ℕ), t.HasShape n m →
      t.isAffine = true → ∀ point : List K, point.length = n →
        ∃ column, t.timesColumn point = .ok column ∧ column.elements.getD m 0 = 1 ∧
          ofColumn m true column = ofColumn m false column := by
  refine ⟨?_, ?_, ?_⟩
  · intro α _ hcomm hone t n m h
    exact multipliesColumns hcomm hone h
  · intro t n m h
    exact multipliesColumns Double.mul_comm Double.mul_one h
  · intro K _ _ t n m h haffine point hp
    obtain ⟨column, hcolumn, hlast⟩ := timesColumn_last_of_isAffine h haffine hp
    refine ⟨column, hcolumn, hlast, ?_⟩
    simp only [ofColumn, hlast, div_one, ite_self]

/-- A perspective map of the line in doubles, one of the plane onto the line, and an affine map. -/
theorem applyBatch_columns_spec_line :
    let perspective : Projective Float := ⟨.small 2 (by decide) (.of2 1 2 3 1)⟩
    let flattening : Projective ℚ := ⟨.flat ⟨2, 3, #[1, 2, 3, 0, 1, 1]⟩⟩
    let stretch : Projective ℚ := ⟨.small 2 (by decide) (.of2 2 3 0 1)⟩
    perspective.HasShape 1 1 ∧ perspective.MultipliesColumns 1 1 ∧
      flattening.HasShape 2 1 ∧ flattening.MultipliesColumns 2 1 ∧
      stretch.HasShape 1 1 ∧ stretch.isAffine = true ∧
      ∃ column, stretch.timesColumn [5] = .ok column ∧ column.elements.getD 1 0 = 1 ∧
        ofColumn 1 true column = ofColumn 1 false column := by
  intro perspective flattening stretch
  have hperspective : perspective.HasShape 1 1 := ⟨rfl, rfl, rfl⟩
  have hflattening : flattening.HasShape 2 1 := ⟨rfl, rfl, rfl⟩
  have hstretch : stretch.HasShape 1 1 := ⟨rfl, rfl, rfl⟩
  have haffine : stretch.isAffine = true := by decide
  exact ⟨hperspective, applyBatch_columns_spec.2.1 perspective 1 1 hperspective,
    hflattening, applyBatch_columns_spec.1 mul_comm mul_one flattening 2 1 hflattening,
    hstretch, haffine, applyBatch_columns_spec.2.2 stretch 1 1 hstretch haffine [5] rfl⟩

end Projective

end Georeferencing
