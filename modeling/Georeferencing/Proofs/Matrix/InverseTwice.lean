import Georeferencing.Proofs.Matrix.Solve

/-! # Inverting twice

The inverse of an inverse has the elements of the matrix, where there is one. The pivots of the
inverse are tested beside its own columns, which need not be scaled as those of the matrix are. Up
to size three all tests come down to one on the determinant and the cofactors of the matrix. Larger
pivots are bounded from below by the rows of the matrix: a row of the inverse that elimination has
not used yet has only been moved.
-/

namespace Georeferencing

variable {K : Type} [Field K] {n w : ℕ}

namespace LinearSystem

/-- Every combination of the rows of `s` is one of the rows of `t`, where the rows from `m` on keep
their coefficients in some order. -/
def Recombines (s t : LinearSystem n w K) (m : ℕ) : Prop :=
  ∀ u : Fin n → K, ∃ (v : Fin n → K) (σ : Equiv.Perm (Fin n)),
    (∀ j, ∑ i, v i * t.left i j = ∑ i, u i * s.left i j) ∧ ∀ i : Fin n, m ≤ i.val → v i = u (σ i)

variable {s t : LinearSystem n w K} {k : Fin n}

theorem recombines_start (s : LinearSystem n w K) : Recombines s s 0 :=
  fun u => ⟨u, 1, fun _ => rfl, fun _ _ => rfl⟩

theorem Recombines.swapRows (h : Recombines s t k) {p : Fin n} (hp : k ≤ p) :
    Recombines s (t.swapRows k p) k := by
  intro u
  obtain ⟨v, σ, hv, hkept⟩ := h u
  refine ⟨v ∘ Equiv.swap k p, Equiv.swap k p |>.trans σ, ?_, ?_⟩
  · intro j
    rw [← hv j, ← Equiv.sum_comp (Equiv.swap k p) fun i => v i * t.left i j]
    refine Finset.sum_congr rfl fun i _ => ?_
    rw [LinearSystem.swapRows, mapRows, Block.entry_ofFn, ← Equiv.swap_apply_def]
    rfl
  · intro i hi
    apply hkept
    rw [Equiv.swap_apply_def]
    split_ifs
    · exact hp
    · exact le_rfl
    · exact hi

/-- Rows that are changed by multiples of row `k` alone leave its coefficient to make up for it. -/
theorem Recombines.addMultiples {m : ℕ} (h : Recombines s t m) (hm : m ≤ k + 1)
    {t' : LinearSystem n w K} (f : Fin n → K)
    (hrows : ∀ i j, t.left i j = t'.left i j + f i * t'.left k j) : Recombines s t' (k + 1) := by
  intro u
  obtain ⟨v, σ, hv, hkept⟩ := h u
  refine ⟨fun i => v i + if i = k then ∑ l, v l * f l else 0, σ, ?_, ?_⟩
  · intro j
    rw [← hv j]
    simp only [add_mul, ite_mul, zero_mul, Finset.sum_add_distrib, Finset.sum_ite_eq',
      Finset.mem_univ, if_true, hrows, mul_add, Finset.sum_mul, mul_assoc]
  · intro i hi
    have hik : i ≠ k := by
      rintro rfl
      omega
    change v i + (if i = k then _ else 0) = u (σ i)
    rw [if_neg hik, add_zero]
    exact hkept i (by omega)

section

variable [LinearOrder K]

theorem Recombines.divideRow (h : Recombines s t k) {divisor : K} (hdivisor : divisor ≠ 0) :
    Recombines s (t.divideRow k divisor) (k + 1) := by
  apply h.addMultiples (Nat.le_succ _) fun i => if i = k then divisor - 1 else 0
  intro i j
  simp only [LinearSystem.divideRow, mapRows, Block.entry_ofFn]
  by_cases hik : i = k
  · subst hik
    simp only [if_true]
    field_simp
    ring
  · simp [hik]

theorem Recombines.clearColumn (h : Recombines s t (k + 1)) :
    Recombines s (t.clearColumn k) (k + 1) := by
  apply h.addMultiples le_rfl fun i => if i = k then 0 else t.left i k
  intro i j
  simp only [LinearSystem.clearColumn, mapRows, Block.entry_ofFn]
  by_cases hik : i = k
  · simp [hik]
  · by_cases hzero : t.left i k = 0
    · simp [hik, hzero]
    · simp [hik, hzero]

theorem Recombines.eliminate (h : Recombines s t k) (hpivot : t.pivot k ≠ 0) :
    Recombines s (t.eliminate k) (k + 1) :=
  ((h.swapRows (t.le_pivotRow k)).divideRow hpivot).clearColumn

theorem recombines_after {m : ℕ} (hm : m ≤ n)
    (h : ∀ k : Fin n, k.val < m → (s.after k).pivot k ≠ 0) : Recombines s (s.after m) m := by
  apply after_induction (P := fun m u => Recombines s u m) (recombines_start s) hm
  intro k hk hbefore
  exact hbefore.eliminate (h k hk)

end

end LinearSystem

namespace Square

variable [LinearOrder K] [IsStrictOrderedRing K] {m : Square n K}

theorem pivot_ne_zero (h : m.toMatrix.det ≠ 0) (k : Fin n) : m.pivot k ≠ 0 := by
  have hprod := abs_pos.mpr h
  rw [abs_det] at hprod
  exact abs_ne_zero.mp (Finset.prod_ne_zero_iff.mp hprod.ne' k (Finset.mem_univ k))

/-- A pivot is not smaller than what its row in a left inverse allows. -/
theorem one_le_abs_pivot_mul {a : Matrix (Fin n) (Fin n) K} (h : a * m.toMatrix = 1) (k : Fin n) :
    1 ≤ |m.pivot k| * ∑ j, |a k j| := by
  let s : LinearSystem n 0 K := ⟨m, Block.zero n 0⟩
  let t := s.after k
  have hdet : m.toMatrix.det ≠ 0 := Matrix.det_ne_zero_of_left_inverse h
  have hbefore : ∀ j : Fin n, j.val < k → (s.after j).pivot j ≠ 0 := fun j _ => pivot_ne_zero hdet j
  have hreduced : LinearSystem.Reduced s t k := LinearSystem.reduced_after k.isLt.le hbefore
  obtain ⟨v, σ, hv, hkept⟩ := LinearSystem.recombines_after k.isLt.le hbefore (a k)
  have hcolumn : ∀ j, ∑ i, v i * t.left i j = if k = j then 1 else 0 := by
    intro j
    rw [hv j, ← Matrix.one_apply, ← h, Matrix.mul_apply]
    rfl
  -- the rows that are done have no part in the combination
  have hdone : ∀ i : Fin n, i.val < k → v i = 0 := by
    intro i hi
    have hsum := hcolumn i
    simp only [hreduced.unit _ i hi] at hsum
    rw [if_neg (by rintro rfl; omega)] at hsum
    simpa using hsum
  have hterm : ∀ i, |v i * t.left i k| ≤ |m.pivot k| * |a k (σ i)| := by
    intro i
    rw [abs_mul]
    by_cases hi : i.val < k
    · rw [hdone i hi, abs_zero, zero_mul]
      exact mul_nonneg (abs_nonneg _) (abs_nonneg _)
    · rw [hkept i (by omega), mul_comm]
      exact mul_le_mul_of_nonneg_right (t.abs_le_abs_pivot (not_lt.mp hi)) (abs_nonneg _)
  calc (1 : K) = |∑ i, v i * t.left i k| := by rw [hcolumn k, if_pos rfl, abs_one]
    _ ≤ ∑ i, |v i * t.left i k| := Finset.abs_sum_le_sum_abs _ _
    _ ≤ ∑ i, |m.pivot k| * |a k (σ i)| := Finset.sum_le_sum fun i _ => hterm i
    _ = |m.pivot k| * ∑ j, |a k j| := by
      rw [← Finset.mul_sum, Equiv.sum_comp σ fun j => |a k j|]

/-- The test of all pivots of an inverse, on the cofactors of the matrix. -/
theorem prod_pivot_inverse {a : Matrix (Fin n) (Fin n) K} (h : m.toMatrix * a = 1) :
    ∏ k, |m.pivot k| ≤ Scalar.epsilon * ∏ k, m.columnMagnitude k ↔
      |a.det| ^ (n - 1) ≤ Scalar.epsilon * ∏ k, (Block.ofMatrix a.adjugate).columnMagnitude k := by
  have hdets : m.toMatrix.det * a.det = 1 := by rw [← Matrix.det_mul, h, Matrix.det_one]
  have hdet : a.det ≠ 0 := right_ne_zero_of_mul_eq_one hdets
  have hpos : 0 < |a.det| := abs_pos.mpr hdet
  have hcofactors : m.toMatrix = a.det⁻¹ • a.adjugate :=
    left_inv_eq_right_inv h (mul_eq_one_comm.mp (adjugate_over_det_mul a hdet))
  have hcolumns : ∀ k, m.columnMagnitude k =
      (Block.ofMatrix a.adjugate).columnMagnitude k * |a.det|⁻¹ := by
    intro k
    rw [← abs_inv]
    apply Block.columnMagnitude_mul
    intro i
    rw [← Block.toMatrix_apply, ← Block.toMatrix_apply, hcofactors, Block.toMatrix_ofMatrix,
      Matrix.smul_apply, smul_eq_mul, mul_comm]
  -- one of the factors of the scale cancels the determinant of the inverse
  have hpower : |m.toMatrix.det| * |a.det| ^ n = |a.det| ^ (n - 1) := by
    cases n with
    | zero => simp
    | succ n =>
      rw [pow_succ', ← mul_assoc, ← abs_mul, hdets, abs_one, one_mul]
      rfl
  rw [← abs_det, Finset.prod_congr rfl fun k _ => hcolumns k, Finset.prod_mul_distrib,
    Finset.prod_const, Finset.card_univ, Fintype.card_fin, inv_pow, ← hpower, ← mul_assoc,
    ← div_eq_mul_inv, le_div_iff₀ (pow_pos hpos n)]

theorem columnMagnitude_le_one (h : m.toMatrix = 1) (k : Fin n) : m.columnMagnitude k ≤ 1 := by
  apply Block.columnMagnitude_le zero_le_one
  intro i
  rw [← Block.toMatrix_apply, h, Matrix.one_apply]
  split
  · rw [abs_one]
  · rw [abs_zero]
    exact zero_le_one

theorem one_le_abs_pivot (h : m.toMatrix = 1) (k : Fin n) : 1 ≤ |m.pivot k| := by
  have hrow := one_le_abs_pivot_mul (a := 1) (m := m) (by rw [h, one_mul]) k
  simpa [Matrix.one_apply, apply_ite abs] using hrow

end Square

namespace StoredMatrix

variable [LinearOrder K] [IsStrictOrderedRing K] {m x y : StoredMatrix K}

/-- An inverse is held as its shape asks for. -/
theorem exists_inverse_block (hx : m.inverse = .ok x) : ∃ b : Square m.numRow K,
    x = ofBlock b ∧ b.toMatrix * m.toMatrix m.numRow m.numRow = 1 := by
  obtain ⟨-, hrow, hcol, hleft⟩ := inverse_ok hx
  refine ⟨Block.ofMatrix (x.toMatrix m.numRow m.numRow), ?_, ?_⟩
  · exact (canonical_inverse hx).eq_ofMatrix hrow hcol
  · rwa [Block.toMatrix_ofMatrix]

/-- What inverts the inverse has the elements of the matrix. -/
theorem elements_of_inverse_inverse (hm : m.Consistent) (hx : m.inverse = .ok x)
    (hy : x.inverse = .ok y) :
    y.numRow = m.numRow ∧ y.numCol = m.numCol ∧ y.elements = m.elements := by
  obtain ⟨hsquare, hrow, -, hleft⟩ := inverse_ok hx
  obtain ⟨-, hyrow, hycol, hyleft⟩ := inverse_ok hy
  rw [hrow] at hyrow hycol hyleft
  refine ⟨hyrow, hycol.trans hsquare, ?_⟩
  exact elements_eq_of_toMatrix_eq (canonical_inverse hy).consistent hm hyrow hycol rfl
    hsquare.symm (left_inv_eq_right_inv hyleft hleft)

/-- Up to size three every test is one of the pivots as a whole. -/
theorem inverse_ofBlock_refused_iff_prod {b : Square n K} (hn : n ≤ 3) :
    (ofBlock b).inverse = .error .nonInvertible ↔
      ∏ k, |b.pivot k| ≤ Scalar.epsilon * ∏ k, b.columnMagnitude k := by
  rw [inverse_ofBlock_refused_iff]
  split
  · rfl
  · exact Square.hasNegligiblePivot_iff_prod (by omega)

/-- The identity passes every test. -/
theorem exists_inverse_of_eq_one {b : Square n K} (h : b.toMatrix = 1) :
    ∃ x, (ofBlock b).inverse = .ok x := by
  have hsmall : ∀ magnitude : K, magnitude ≤ 1 → Scalar.epsilon * magnitude < 1 := by
    intro magnitude hmagnitude
    exact (mul_le_of_le_one_right Exact.epsilon_pos.le hmagnitude).trans_lt Exact.epsilon_lt_one
  rw [exists_inverse_iff, ne_eq, inverse_ofBlock_refused_iff]
  split
  · rw [← Square.abs_det, h, Matrix.det_one, abs_one, not_le]
    apply hsmall
    exact Finset.prod_le_one (fun k _ => b.columnMagnitude_nonneg k) fun k _ =>
      Square.columnMagnitude_le_one h k
  · rw [Square.hasNegligiblePivot_iff]
    rintro ⟨k, hk⟩
    have hlarge := (Square.one_le_abs_pivot h k).trans hk
    exact absurd hlarge (not_le.mpr (hsmall _ (Square.columnMagnitude_le_one h k)))

/-- The identity is its own inverse, of whatever size. -/
theorem inverse_identity (n : ℕ) : (identity n : StoredMatrix K).inverse = .ok (identity n) := by
  rw [identity_eq]
  obtain ⟨x, hx⟩ := exists_inverse_of_eq_one (b := Block.ofMatrix (1 : Matrix (Fin n) (Fin n) K))
    (Block.toMatrix_ofMatrix 1)
  obtain ⟨-, hrow, hcol, hleft⟩ := inverse_ok hx
  rw [numRow_ofBlock] at hrow hcol hleft
  rw [toMatrix_ofBlock, Block.toMatrix_ofMatrix, mul_one] at hleft
  change (ofMatrix (1 : Matrix (Fin n) (Fin n) K)).inverse = _ at hx
  rw [hx, (canonical_inverse hx).eq_ofMatrix hrow hcol, hleft]

/-- A second inverse has the elements of the matrix, but there need not be one. Up to size three
there is none if the determinant, to the power of one less than the size, is negligible beside the
columns of the adjugate; for size two these are the rows of the matrix, which may be parallel in one
unit of the columns and not in another. For any other size a negligible pivot of the inverse is the
reason. There is none if each column of the inverse and the row of the matrix that belongs to it are
not too large together. -/
theorem inverse_inverse_spec (m x : StoredMatrix K) (hm : m.Consistent)
    (hx : m.inverse = .ok x) :
    let a := m.toMatrix m.numRow m.numRow
    let b : Square m.numRow K := .ofArray _ _ x.elements
    (∀ y, x.inverse = .ok y →
      y.numRow = m.numRow ∧ y.numCol = m.numCol ∧ y.elements = m.elements) ∧
    (∀ e, x.inverse = .error e → e = .nonInvertible) ∧
    (m.numRow ≤ 3 → (x.inverse = .error .nonInvertible ↔ |a.det| ^ (m.numRow - 1) ≤
      Scalar.epsilon * ∏ k, (Block.ofMatrix a.adjugate).columnMagnitude k)) ∧
    (m.numRow ≠ 3 →
      (x.inverse = .error .nonInvertible ↔
        ∃ k, |b.pivot k| ≤ Scalar.epsilon * b.columnMagnitude k) ∧
      ((∀ k, Scalar.epsilon * (b.columnMagnitude k * ∑ j, |a k j|) < 1) →
        ∃ y, x.inverse = .ok y)) := by
  intro a b
  obtain ⟨b', rfl, hleft⟩ := exists_inverse_block hx
  have hb : b = b' := by
    change Block.ofArray _ _ (ofBlock b').elements = b'
    rw [elements_ofBlock, Block.ofArray_elements]
  rw [hb]
  refine ⟨fun y => elements_of_inverse_inverse hm hx, fun e => inverse_error, ?_, ?_⟩
  · intro hsize
    rw [inverse_ofBlock_refused_iff_prod hsize, Square.prod_pivot_inverse hleft]
  · intro hsize
    rw [exists_inverse_iff, ne_eq, inverse_ofBlock_refused_iff, if_neg hsize,
      Square.hasNegligiblePivot_iff]
    refine ⟨Iff.rfl, ?_⟩
    rintro hrows ⟨k, hk⟩
    have hbound := Square.one_le_abs_pivot_mul (mul_eq_one_comm.mp hleft) k
    have hnonneg : 0 ≤ ∑ j, |a k j| := Finset.sum_nonneg fun j _ => abs_nonneg (a k j)
    have hlarge := hbound.trans (mul_le_mul_of_nonneg_right hk hnonneg)
    rw [mul_assoc] at hlarge
    exact absurd (hrows k) (not_lt.mpr hlarge)

/-- A matrix that has an inverse, which has none, and one that is the inverse of its inverse. -/
theorem inverse_inverse_spec_parallel_rows :
    let t : ℚ := 1 / 2 ^ 60
    let m : StoredMatrix ℚ := small 2 (by decide) (.of2 1 t 1 (2 * t))
    let x : StoredMatrix ℚ := small 2 (by decide) (.of2 2 (-1) (-(2 ^ 60)) (2 ^ 60))
    let m' : StoredMatrix ℚ := .flat ⟨4, 4, #[0, 1, 0, 0, 2, 0, 0, 1, 0, 0, 4, 0, 0, 0, 0, 1]⟩
    m.inverse = .ok x ∧ x.inverse = .error .nonInvertible ∧
      ∃ x' y, m'.inverse = .ok x' ∧ x'.inverse = .ok y ∧ y.elements = m'.elements := by
  intro t m x m'
  let x' : StoredMatrix ℚ :=
    .small 4 (by decide) ⟨#v[0, 1/2, 0, -1/2, 1, 0, 0, 0, 0, 0, 1/4, 0, 0, 0, 0, 1]⟩
  have hx : m.inverse = .ok x := by decide +kernel
  have hx' : m'.inverse = .ok x' := by decide +kernel
  have hm := inverse_inverse_spec m x rfl hx
  obtain ⟨helements, -, -, hfour⟩ := inverse_inverse_spec m' x' rfl hx'
  obtain ⟨y, hy⟩ := (hfour (by decide)).2 (by decide +kernel)
  refine ⟨hx, (hm.2.2.2 (by decide)).1.mpr ?_, x', y, hx', hy, (helements y hy).2.2⟩
  decide +kernel

end StoredMatrix

end Georeferencing
