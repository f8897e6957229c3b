import Georeferencing.Proofs.Matrix.Solve

/-! # Units of the coordinates

Scaling the columns of a matrix, as a change of units does, scales every pivot as its column: the
elimination chooses the same rows, and a row that is done is scaled back. So a pivot is negligible
beside its column in one unit if it is in any other, and what is refused does not change. Only a
product stores a flat array of size three as a block, which is tested otherwise.
-/

namespace Georeferencing

variable {K : Type} [Field K] {n w : ℕ}

namespace Block

variable {r c : ℕ}

/-- Multiplies each column by a number of its own. -/
def scaleColumns (b : Block r c K) (d : Fin c → K) : Block r c K := ofFn fun i j => b i j * d j

@[simp] theorem entry_scaleColumns (b : Block r c K) (d : Fin c → K) (i : Fin r) (j : Fin c) :
    (b.scaleColumns d).entry i j = b i j * d j := by
  simp [scaleColumns]

theorem toMatrix_scaleColumns (b : Block r c K) (d : Fin c → K) :
    (b.scaleColumns d).toMatrix = b.toMatrix * Matrix.diagonal d := by
  ext i j
  simp [Matrix.mul_diagonal]

end Block

namespace LinearSystem

/-- The factor of row `i` when the columns before `k` are done. -/
def rowFactor (d : Fin n → K) (k : ℕ) (i : Fin n) : K := if i.val < k then (d i)⁻¹ else 1

/-- When the columns before `k` are done in two eliminations, the left side of the second is that
of the first with its columns scaled and its finished rows scaled back. -/
def Scaled (d : Fin n → K) (k : ℕ) (s t : LinearSystem n w K) : Prop :=
  ∀ i j, t.left i j = rowFactor d k i * s.left i j * d j

variable {d : Fin n → K} {s t : LinearSystem n w K} {k : Fin n}

theorem rowFactor_of_le {i : Fin n} (h : k ≤ i) : rowFactor d k i = 1 := if_neg (not_lt.mpr h)

theorem rowFactor_of_ne {i : Fin n} (h : i ≠ k) : rowFactor d (k + 1) i = rowFactor d k i :=
  if_congr (by omega) rfl rfl

theorem rowFactor_self : rowFactor d (k + 1) k = (d k)⁻¹ := if_pos (Nat.lt_succ_self _)

theorem rowFactor_ne_zero (hd : ∀ j, d j ≠ 0) (m : ℕ) (i : Fin n) : rowFactor d m i ≠ 0 := by
  rw [rowFactor]
  split
  · exact inv_ne_zero (hd i)
  · exact one_ne_zero

theorem Scaled.left_of_le (h : Scaled d k s t) {i : Fin n} (hi : k ≤ i) (j : Fin n) :
    t.left i j = s.left i j * d j := by
  rw [h, rowFactor_of_le hi, one_mul]

/-- The rows that are swapped are not done yet. -/
theorem Scaled.swapRows (h : Scaled d k s t) {p : Fin n} (hp : k ≤ p) :
    Scaled d k (s.swapRows k p) (t.swapRows k p) := by
  intro i j
  simp only [LinearSystem.swapRows, mapRows, Block.entry_ofFn]
  by_cases hik : i = k
  · subst hik
    rw [if_pos rfl, h.left_of_le hp, rowFactor_of_le le_rfl, one_mul]
  · by_cases hip : i = p
    · subst hip
      rw [if_neg hik, if_pos rfl, h.left_of_le le_rfl, rowFactor_of_le hp, one_mul]
    · rw [if_neg hik, if_neg hip, h]

section

variable [LinearOrder K]

/-- Dividing row `k` by a pivot that is scaled as column `k` scales the row back. -/
theorem Scaled.divideRow (h : Scaled d k s t) (c : K) :
    Scaled d (k + 1) (s.divideRow k c) (t.divideRow k (c * d k)) := by
  intro i j
  simp only [LinearSystem.divideRow, mapRows, Block.entry_ofFn]
  by_cases hik : i = k
  · subst hik
    rw [if_pos rfl, if_pos rfl, h.left_of_le le_rfl, rowFactor_self]
    calc s.left i j * d j / (c * d i) = s.left i j * d j * (c⁻¹ * (d i)⁻¹) := by
          rw [div_eq_mul_inv, mul_inv]
      _ = (d i)⁻¹ * (s.left i j / c) * d j := by ring
  · rw [if_neg hik, if_neg hik, h, rowFactor_of_ne hik]

theorem Scaled.clearColumn (hd : ∀ j, d j ≠ 0) (h : Scaled d (k + 1) s t) :
    Scaled d (k + 1) (s.clearColumn k) (t.clearColumn k) := by
  intro i j
  have hzero : t.left i k = 0 ↔ s.left i k = 0 := by
    rw [h, mul_eq_zero, mul_eq_zero, or_iff_left (hd k), or_iff_right (rowFactor_ne_zero hd _ i)]
  simp only [LinearSystem.clearColumn, mapRows, Block.entry_ofFn, Bool.or_eq_true,
    decide_eq_true_eq, beq_iff_eq, hzero]
  split
  · exact h i j
  · have hk := hd k
    rw [h i j, h i k, h k j, rowFactor_self]
    field_simp

variable [IsStrictOrderedRing K]

/-- Both eliminations choose the same row, also among rows of equal magnitude. -/
theorem Scaled.pivotRow (h : Scaled d k s t) (hk : d k ≠ 0) : t.pivotRow k = s.pivotRow k := by
  have hcompare : ∀ best i, k ≤ best → k ≤ i →
      Scalar.magnitudeLE (t.left best k) (t.left i k) =
        Scalar.magnitudeLE (s.left best k) (s.left i k) := by
    intro best i hbest hi
    simp only [Scalar.magnitudeLE, Exact.isNaN_eq_false, Exact.abs_eq, Bool.false_or,
      decide_eq_decide]
    rw [h.left_of_le hbest, h.left_of_le hi, abs_mul, abs_mul,
      mul_le_mul_iff_left₀ (abs_pos.mpr hk)]
  -- the best row so far is never one that is done, so it is scaled by its column alone
  have hfold : ∀ (rows : List (Fin n)) (best : Fin n), k ≤ best → (∀ i ∈ rows, k ≤ i) →
      rows.foldl
          (fun best i => if Scalar.magnitudeLE (t.left best k) (t.left i k) then i else best) best =
        rows.foldl
          (fun best i => if Scalar.magnitudeLE (s.left best k) (s.left i k) then i else best)
          best := by
    intro rows
    induction rows with
    | nil =>
      intro best _ _
      rfl
    | cons i rest ih =>
      intro best hbest hrows
      rw [List.forall_mem_cons] at hrows
      rw [List.foldl_cons, List.foldl_cons, hcompare best i hbest hrows.1]
      apply ih _ _ hrows.2
      split
      · exact hrows.1
      · exact hbest
  apply hfold _ _ le_rfl
  intro i hi
  exact of_decide_eq_true (List.mem_filter.mp hi).2

theorem Scaled.pivot (h : Scaled d k s t) (hk : d k ≠ 0) : t.pivot k = s.pivot k * d k := by
  rw [LinearSystem.pivot, h.pivotRow hk, h.left_of_le (s.le_pivotRow k)]
  rfl

theorem Scaled.eliminate (hd : ∀ j, d j ≠ 0) (h : Scaled d k s t) :
    Scaled d (k + 1) (s.eliminate k) (t.eliminate k) := by
  rw [LinearSystem.eliminate, LinearSystem.eliminate, h.pivotRow (hd k), h.pivot (hd k)]
  exact ((h.swapRows (s.le_pivotRow k)).divideRow (s.pivot k)).clearColumn hd

theorem Scaled.after (hd : ∀ j, d j ≠ 0) (h : Scaled d 0 s t) {m : ℕ} (hm : m ≤ n) :
    Scaled d m (s.after m) (t.after m) := by
  apply after_induction (P := fun m u => Scaled d m u (t.after m)) h hm
  intro k _ hbefore
  rw [after_succ t k.isLt]
  exact hbefore.eliminate hd

end

end LinearSystem

namespace Square

variable [LinearOrder K] [IsStrictOrderedRing K] {m : Square n K} {d : Fin n → K}

theorem pivot_scaleColumns (hd : ∀ j, d j ≠ 0) (k : Fin n) :
    pivot (m.scaleColumns d) k = m.pivot k * d k := by
  have hstart : LinearSystem.Scaled d 0 (⟨m, Block.zero n 0⟩ : LinearSystem n 0 K)
      ⟨m.scaleColumns d, Block.zero n 0⟩ := by
    intro i j
    rw [Block.entry_scaleColumns, LinearSystem.rowFactor, if_neg (Nat.not_lt_zero _), one_mul]
  exact (hstart.after hd k.isLt.le).pivot (hd k)

theorem columnMagnitude_scaleColumns (k : Fin n) :
    (m.scaleColumns d).columnMagnitude k = m.columnMagnitude k * |d k| :=
  Block.columnMagnitude_mul fun i => m.entry_scaleColumns d i k

theorem hasNegligiblePivot_scaleColumns (hd : ∀ j, d j ≠ 0) :
    HasNegligiblePivot (m.scaleColumns d) ↔ m.HasNegligiblePivot := by
  rw [hasNegligiblePivot_iff, hasNegligiblePivot_iff]
  apply exists_congr
  intro k
  rw [pivot_scaleColumns hd, columnMagnitude_scaleColumns, abs_mul, ← mul_assoc,
    mul_le_mul_iff_left₀ (abs_pos.mpr (hd k))]

/-- The pivots as a whole are negligible beside all columns in any units or in none. -/
theorem prod_pivot_scaleColumns (hd : ∀ j, d j ≠ 0) :
    ∏ k, |pivot (m.scaleColumns d) k| ≤
        Scalar.epsilon * ∏ k, (m.scaleColumns d).columnMagnitude k ↔
      ∏ k, |m.pivot k| ≤ Scalar.epsilon * ∏ k, m.columnMagnitude k := by
  have hfactors : 0 < ∏ k, |d k| := Finset.prod_pos fun k _ => abs_pos.mpr (hd k)
  simp only [pivot_scaleColumns hd, columnMagnitude_scaleColumns, abs_mul, Finset.prod_mul_distrib]
  rw [← mul_assoc, mul_le_mul_iff_left₀ hfactors]

/-- The closed formulas and the elimination refuse the same matrices in any units. -/
theorem inverse?_scaleColumns (hd : ∀ j, d j ≠ 0) :
    inverse? (m.scaleColumns d) = none ↔ m.inverse? = none := by
  by_cases hn : n = 3
  · subst hn
    change inverse3? (m.scaleColumns d) = none ↔ m.inverse3? = none
    rw [inverse3?_eq_none, inverse3?_eq_none, prod_pivot_scaleColumns hd]
  · rw [inverse?_eq_none hn, inverse?_eq_none hn, hasNegligiblePivot_scaleColumns hd]

end Square

namespace StoredMatrix

variable [LinearOrder K]

/-- Multiplies each column by a number of its own and keeps the storage. -/
def scaleColumns (d : ℕ → K) : StoredMatrix K → StoredMatrix K
  | small n h b => small n h (b.scaleColumns fun j => d j)
  | flat m => flat (.ofBlock (m.toBlock.scaleColumns fun j => d j))

theorem shape_scaleColumns (d : ℕ → K) (m : StoredMatrix K) :
    (m.scaleColumns d).numRow = m.numRow ∧ (m.scaleColumns d).numCol = m.numCol := by
  cases m with
  | small n h b => exact ⟨rfl, rfl⟩
  | flat m => exact ⟨rfl, rfl⟩

theorem toMatrix_scaleColumns (d : ℕ → K) {m : StoredMatrix K} {r c : ℕ} (hr : m.numRow = r)
    (hc : m.numCol = c) :
    (m.scaleColumns d).toMatrix r c =
      m.toMatrix r c * Matrix.diagonal fun j : Fin c => d j := by
  cases m with
  | small n h b =>
    obtain rfl : n = r := hr
    obtain rfl : n = c := hc
    rw [scaleColumns, toMatrix_small, toMatrix_small, Block.toMatrix_scaleColumns]
  | flat m =>
    obtain ⟨numRow, numCol, elements⟩ := m
    obtain rfl : numRow = r := hr
    obtain rfl : numCol = c := hc
    rw [scaleColumns, toMatrix, toMatrix]
    change RowMajor.toMatrix numCol (Block.elements _).toArray numRow numCol = _
    rw [Block.rowMajor_toMatrix, Block.toMatrix_scaleColumns, FlatMatrix.toBlock,
      Block.toMatrix_ofArray]
    rfl

theorem toMatrix_flat_mul_diagonal (d : ℕ → K) (elements : Array K) :
    (flat ⟨n, n, elements⟩).toMatrix n n * Matrix.diagonal (fun j : Fin n => d j) =
      ((Block.ofArray n n elements).scaleColumns fun j => d j).toMatrix := by
  rw [Block.toMatrix_scaleColumns, Block.toMatrix_ofArray]
  rfl

theorem inverse_eq_error_of_not_square {m : StoredMatrix K} (h : m.numRow ≠ m.numCol) :
    m.inverse = .error .nonInvertible := by
  cases m with
  | small n hn b => exact absurd rfl h
  | flat m => exact if_neg h

variable [IsStrictOrderedRing K]

/-- In its own storage a matrix is refused in all units or in none. -/
theorem inverse_scaleColumns_refused_iff {a : StoredMatrix K} {d : ℕ → K}
    (hd : ∀ j < a.numCol, d j ≠ 0) :
    (a.scaleColumns d).inverse = .error .nonInvertible ↔ a.inverse = .error .nonInvertible := by
  cases a with
  | small n h b =>
    rw [scaleColumns, inverse_small_refused_iff, inverse_small_refused_iff]
    exact Square.inverse?_scaleColumns fun j => hd j j.isLt
  | flat m =>
    obtain ⟨numRow, numCol, elements⟩ := m
    by_cases hsquare : numRow = numCol
    · subst hsquare
      rw [scaleColumns, FlatMatrix.ofBlock, inverse_flat_refused_iff, inverse_flat_refused_iff,
        Block.ofArray_elements]
      exact Square.hasNegligiblePivot_scaleColumns fun j => hd j j.isLt
    · exact iff_of_true (inverse_eq_error_of_not_square hsquare)
        (inverse_eq_error_of_not_square hsquare)

/-- A product with a diagonal matrix is refused as the matrix is, unless the matrix is a flat array
of size three: its product is held as a block. -/
theorem inverse_mul_diagonal_refused_iff {a : StoredMatrix K} {d : ℕ → K} (har : a.numRow = n)
    (hac : a.numCol = n) (hd : ∀ j < n, d j ≠ 0)
    (hthree : ∀ elements, a ≠ flat ⟨3, 3, elements⟩) :
    (ofMatrix (a.toMatrix n n * Matrix.diagonal fun j : Fin n => d j)).inverse =
      .error .nonInvertible ↔ a.inverse = .error .nonInvertible := by
  cases a with
  | small m h b =>
    obtain rfl : m = n := har
    have hstored : (small m h b).scaleColumns d =
        ofMatrix ((small m h b).toMatrix m m * Matrix.diagonal fun j : Fin m => d j) := by
      rw [← toMatrix_scaleColumns d (m := small m h b) (r := m) (c := m) rfl rfl]
      exact Canonical.eq_ofMatrix trivial rfl rfl
    rw [← hstored]
    exact inverse_scaleColumns_refused_iff hd
  | flat m =>
    obtain ⟨numRow, numCol, elements⟩ := m
    obtain rfl : numRow = n := har
    obtain rfl : numCol = numRow := hac
    have hn : numCol ≠ 3 := by
      rintro rfl
      exact hthree elements rfl
    rw [toMatrix_flat_mul_diagonal, ofMatrix_toMatrix, inverse_ofBlock_refused_iff, if_neg hn,
      inverse_flat_refused_iff]
    exact Square.hasNegligiblePivot_scaleColumns fun j => hd j j.isLt

/-- What inverts the scaled matrix is the inverse scaled back. -/
theorem inverse_scaled_eq {a x b y : StoredMatrix K} {d : ℕ → K} (har : a.numRow = n)
    (hbr : b.numRow = n) (hd : ∀ j < n, d j ≠ 0)
    (hb : b.toMatrix n n = a.toMatrix n n * Matrix.diagonal fun j : Fin n => d j)
    (hx : a.inverse = .ok x) (hy : b.inverse = .ok y) :
    y = ofMatrix ((Matrix.diagonal fun j : Fin n => (d j)⁻¹) * x.toMatrix n n) := by
  subst har
  obtain ⟨-, -, -, hxa⟩ := inverse_ok hx
  obtain ⟨-, hyrow, hycol, hyb⟩ := inverse_ok hy
  rw [hbr] at hyrow hycol hyb
  have hunits : (Matrix.diagonal fun j : Fin a.numRow => d j) *
      (Matrix.diagonal fun j : Fin a.numRow => (d j)⁻¹) = 1 := by
    rw [Matrix.diagonal_mul_diagonal, ← Matrix.diagonal_one]
    congr 1
    funext j
    exact mul_inv_cancel₀ (hd j j.isLt)
  have hright : b.toMatrix a.numRow a.numRow *
      ((Matrix.diagonal fun j : Fin a.numRow => (d j)⁻¹) * x.toMatrix a.numRow a.numRow) = 1 := by
    calc b.toMatrix a.numRow a.numRow * ((Matrix.diagonal fun j : Fin a.numRow => (d j)⁻¹) *
          x.toMatrix a.numRow a.numRow)
        = a.toMatrix a.numRow a.numRow * ((Matrix.diagonal fun j : Fin a.numRow => d j) *
            Matrix.diagonal fun j : Fin a.numRow => (d j)⁻¹) * x.toMatrix a.numRow a.numRow := by
          rw [hb, Matrix.mul_assoc, Matrix.mul_assoc, Matrix.mul_assoc]
      _ = 1 := by rw [hunits, Matrix.mul_one, mul_eq_one_comm.mp hxa]
  rw [(canonical_inverse hy).eq_ofMatrix hyrow hycol, left_inv_eq_right_inv hyb hright]

end StoredMatrix

/-- A square matrix of size `n`, whatever holds it, with the given diagonal and zeros elsewhere. -/
structure HeldMatrix.HasDiagonal (m : HeldMatrix K) (n : ℕ) (d : ℕ → K) : Prop where
  numRow : m.numRow = n
  numCol : m.numCol = n
  entries : m.toMatrix n n = Matrix.diagonal fun j : Fin n => d j

namespace StoredMatrix

variable [LinearOrder K] [IsStrictOrderedRing K]

/-- The units of the columns do not matter. A square matrix whose columns are scaled in place has an
inverse if the matrix has one, and that is the inverse with its rows scaled back; so it is for the
product with a diagonal matrix, unless the matrix is a flat array of size three. The product is
then held as a block, which has an inverse if the pivots as a whole are not negligible, where the
array has one if no single pivot is. -/
theorem inverse_mul_diagonal_spec (a : StoredMatrix K) (diagonal : HeldMatrix K) (d : ℕ → K)
    (har : a.numRow = n) (hac : a.numCol = n) (hdiagonal : diagonal.HasDiagonal n d)
    (hd : ∀ j < n, d j ≠ 0) :
    ((∃ y, (a.scaleColumns d).inverse = .ok y) ↔ ∃ x, a.inverse = .ok x) ∧
    ∃ product, a.mul diagonal = .ok product ∧
      ((∀ elements, a ≠ flat ⟨3, 3, elements⟩) →
        ((∃ y, product.inverse = .ok y) ↔ ∃ x, a.inverse = .ok x)) ∧
      (∀ elements, a = flat ⟨3, 3, elements⟩ →
        let m : Square 3 K := .ofArray 3 3 elements
        ((∃ x, a.inverse = .ok x) ↔ ∀ k, Scalar.epsilon * m.columnMagnitude k < |m.pivot k|) ∧
        ((∃ y, product.inverse = .ok y) ↔
          Scalar.epsilon * ∏ k, m.columnMagnitude k < ∏ k, |m.pivot k|)) ∧
      ∀ x y, a.inverse = .ok x →
        (a.scaleColumns d).inverse = .ok y ∨ product.inverse = .ok y →
          y = ofMatrix ((Matrix.diagonal fun j : Fin n => (d j)⁻¹) * x.toMatrix n n) := by
  set scaled := a.toMatrix n n * Matrix.diagonal fun j : Fin n => d j with hscaled
  have hproduct : a.mul diagonal = .ok (ofMatrix scaled) := by
    rw [mul_held_eq a diagonal har hac hdiagonal.numRow hdiagonal.numCol, hdiagonal.entries]
  refine ⟨?_, ofMatrix scaled, hproduct, ?_, ?_, ?_⟩
  · exact exists_inverse_congr (inverse_scaleColumns_refused_iff fun j hj => hd j (hac ▸ hj))
  · intro hthree
    exact exists_inverse_congr (inverse_mul_diagonal_refused_iff har hac hd hthree)
  · rintro elements rfl m
    obtain rfl : 3 = n := har
    have hm : ofMatrix scaled = ofBlock (m.scaleColumns fun j => d j) := by
      rw [hscaled, toMatrix_flat_mul_diagonal, ofMatrix_toMatrix]
    constructor
    · rw [exists_inverse_iff, ne_eq, inverse_flat_refused_iff, Square.hasNegligiblePivot_iff]
      simp only [not_exists, not_le, m]
    · rw [hm, exists_inverse_iff, ne_eq, inverse_ofBlock_refused_iff, if_pos rfl,
        Square.prod_pivot_scaleColumns fun j => hd j j.isLt, not_le]
  · intro x y hx hy
    rcases hy with hy | hy
    · exact inverse_scaled_eq har ((shape_scaleColumns d a).1.trans har) hd
        (toMatrix_scaleColumns d har hac) hx hy
    · exact inverse_scaled_eq har (numRow_ofBlock _) hd (toMatrix_ofMatrix scaled) hx hy

/-- The array has an inverse and its product with the identity has none: both are tested at two
pivots that are small on their own, but only their product is negligible. -/
theorem inverse_mul_diagonal_spec_near_singular :
    let δ : ℚ := 1 / 2 ^ 30
    let a : StoredMatrix ℚ := flat ⟨3, 3, #[1, 1, 1, 0, δ, 0, 0, 0, δ]⟩
    let product : StoredMatrix ℚ := small 3 isSmall_three (.of3 1 1 1 0 δ 0 0 0 δ)
    (∃ x, a.inverse = .ok x) ∧ (∃ y, (a.scaleColumns fun _ => 1).inverse = .ok y) ∧
      a.mul (.stored (.identity 3)) = .ok product ∧ ¬ ∃ y, product.inverse = .ok y := by
  intro δ a product
  have hidentity : HeldMatrix.HasDiagonal (.stored (.identity 3) : HeldMatrix ℚ) 3 fun _ => 1 :=
    ⟨rfl, rfl, (congrArg (toMatrix · 3 3) (identity_eq 3)).trans
      ((toMatrix_ofMatrix _).trans Matrix.diagonal_one.symm)⟩
  obtain ⟨hscaled, p, hp, -, hthree, -⟩ := inverse_mul_diagonal_spec a (.stored (.identity 3))
    (fun _ => 1) rfl rfl hidentity fun _ _ => one_ne_zero
  obtain ⟨hinverse, hrefused⟩ := hthree _ rfl
  have hproduct : a.mul (.stored (.identity 3)) = .ok product := by decide +kernel
  obtain rfl : product = p := Except.ok.inj (hproduct.symm.trans hp)
  have ha : ∃ x, a.inverse = .ok x := hinverse.mpr (by decide +kernel)
  refine ⟨ha, hscaled.mpr ha, hproduct, hrefused.not.mpr ?_⟩
  decide +kernel

end StoredMatrix

end Georeferencing
