import Mathlib.Data.List.Fold
import Mathlib.LinearAlgebra.Matrix.ToLinearEquiv
import Georeferencing.Proofs.Matrix.Elimination

/-! # Pivots

The pivots that elimination meets depend on the left side alone. Each is the largest magnitude that
is left of its column, and up to its sign the determinant is their product: a column without a pivot
is a combination of the columns before it.
-/

namespace Georeferencing

variable {n w : ℕ}

namespace LinearSystem

section Run

variable {α : Type} [Scalar α] {w' m : ℕ} {s : LinearSystem n w α} {t : LinearSystem n w' α}

theorem left_eliminate (h : s.left = t.left) (k : Fin n) :
    (s.eliminate k).left = (t.eliminate k).left := by
  cases s
  cases t
  cases h
  rfl

/-- The right side has no part in the elimination of the left one. -/
theorem left_after (h : s.left = t.left) (hm : m ≤ n) : (s.after m).left = (t.after m).left := by
  apply after_induction (P := fun m u => u.left = (t.after m).left) h hm
  intro k _ hbefore
  rw [after_succ t k.isLt]
  exact left_eliminate hbefore k

theorem pivot_congr (h : s.left = t.left) (k : Fin n) : s.pivot k = t.pivot k := by
  cases s
  cases t
  cases h
  rfl

end Run

end LinearSystem

/-- The pivot of column `k` when elimination gets there. -/
def Square.pivot {α : Type} [Scalar α] (m : Square n α) (k : Fin n) : α :=
  ((⟨m, Block.zero n 0⟩ : LinearSystem n 0 α).after k).pivot k

theorem LinearSystem.pivot_after {α : Type} [Scalar α] (s : LinearSystem n w α) (k : Fin n) :
    (s.after k).pivot k = s.left.pivot k := by
  rw [Square.pivot]
  apply pivot_congr
  exact left_after rfl k.isLt.le

/-- Keeping the better of two all along a list keeps the best. -/
theorem le_foldl_best {ι κ : Type} [LinearOrder κ] (f : ι → κ) (l : List ι) (first : ι) :
    f first ≤ f (l.foldl (fun best i => if f best ≤ f i then i else best) first) ∧
      ∀ i ∈ l, f i ≤ f (l.foldl (fun best i => if f best ≤ f i then i else best) first) := by
  induction l generalizing first with
  | nil => simp
  | cons i rest ih =>
    rw [List.foldl_cons, List.forall_mem_cons]
    have hboth : f first ≤ f (if f first ≤ f i then i else first) ∧
        f i ≤ f (if f first ≤ f i then i else first) := by
      split
      · next h => exact ⟨h, le_rfl⟩
      · next h => exact ⟨le_rfl, (not_le.mp h).le⟩
    obtain ⟨hstart, hrest⟩ := ih (if f first ≤ f i then i else first)
    exact ⟨hboth.1.trans hstart, hboth.2.trans hstart, hrest⟩

variable {K : Type} [Field K] [LinearOrder K]

namespace LinearSystem

theorem det_divideRow (s : LinearSystem n w K) (k : Fin n) (divisor : K) :
    (s.divideRow k divisor).left.toMatrix.det = divisor⁻¹ * s.left.toMatrix.det := by
  have hupdate : (s.divideRow k divisor).left.toMatrix =
      s.left.toMatrix.updateRow k (divisor⁻¹ • s.left.toMatrix k) := by
    ext i j
    rw [divideRow, mapRows, Block.toMatrix_ofFn, Matrix.of_apply, Matrix.updateRow_apply]
    by_cases hi : i = k
    · subst hi
      rw [if_pos rfl, if_pos rfl, div_eq_inv_mul]
      rfl
    · rw [if_neg hi, if_neg hi]
      rfl
  rw [hupdate, Matrix.det_updateRow_smul, Matrix.updateRow_eq_self]

theorem det_clearColumn (s : LinearSystem n w K) (k : Fin n) :
    (s.clearColumn k).left.toMatrix.det = s.left.toMatrix.det := by
  apply Matrix.det_eq_of_forall_row_eq_smul_add_const
    (fun i => if i = k then 0 else -s.left i k) k (if_pos rfl)
  intro i j
  rw [clearColumn, mapRows, Block.toMatrix_ofFn, Matrix.of_apply]
  by_cases hi : i = k
  · simp [hi]
  · by_cases hz : s.left i k = 0
    · simp [hi, hz]
    · simp [hi, hz, sub_eq_add_neg]

end LinearSystem

variable [IsStrictOrderedRing K]

namespace Block

variable {r c : ℕ}

theorem abs_le_columnMagnitude (b : Block r c K) (i : Fin r) (j : Fin c) :
    |b i j| ≤ b.columnMagnitude j := by
  have hmem : b i j ∈ b.column j := List.mem_map_of_mem (List.mem_finRange i)
  rw [columnMagnitude]
  simp only [Exact.max_eq, Exact.abs_eq]
  rw [← List.foldl_map (f := abs) (g := max), List.foldl_eq_foldr]
  exact List.le_max_of_le' 0 (List.mem_map_of_mem hmem) le_rfl

theorem columnMagnitude_le {b : Block r c K} {j : Fin c} {bound : K} (hbound : 0 ≤ bound)
    (h : ∀ i, |b i j| ≤ bound) : b.columnMagnitude j ≤ bound := by
  rw [columnMagnitude]
  apply List.foldlRecOn (b.column j) (motive := (· ≤ bound)) _ hbound
  intro largest hlargest e he
  obtain ⟨i, -, rfl⟩ := List.mem_map.mp he
  rw [Exact.max_eq, Exact.abs_eq]
  exact max_le hlargest (h i)

/-- The magnitude of a column that is a multiple of another one. -/
theorem columnMagnitude_mul {c' : ℕ} {a : Block r c K} {b : Block r c' K} {k : Fin c} {j : Fin c'}
    {factor : K} (h : ∀ i, b i j = a i k * factor) :
    b.columnMagnitude j = a.columnMagnitude k * |factor| := by
  apply le_antisymm
  · apply columnMagnitude_le (mul_nonneg (a.columnMagnitude_nonneg k) (abs_nonneg factor))
    intro i
    rw [h, abs_mul]
    exact mul_le_mul_of_nonneg_right (a.abs_le_columnMagnitude i k) (abs_nonneg factor)
  · by_cases hfactor : factor = 0
    · rw [hfactor, abs_zero, mul_zero]
      exact b.columnMagnitude_nonneg j
    · have hpos : 0 < |factor| := abs_pos.mpr hfactor
      rw [← le_div_iff₀ hpos]
      apply columnMagnitude_le (div_nonneg (b.columnMagnitude_nonneg j) hpos.le)
      intro i
      rw [le_div_iff₀ hpos, ← abs_mul, ← h]
      exact b.abs_le_columnMagnitude i j

end Block

namespace LinearSystem

variable {s t : LinearSystem n w K} {k : Fin n}

/-- The pivot has the largest magnitude among the rows not yet used. -/
theorem abs_le_abs_pivot (s : LinearSystem n w K) {i k : Fin n} (h : k ≤ i) :
    |s.left i k| ≤ |s.pivot k| := by
  have hmem : i ∈ (List.finRange n).filter (k ≤ ·) :=
    List.mem_filter.mpr ⟨List.mem_finRange i, decide_eq_true h⟩
  have hbest := (le_foldl_best (fun i => |s.left i k|) _ k).2 i hmem
  rw [pivot, pivotRow]
  simpa only [Scalar.magnitudeLE, Exact.isNaN_eq_false, Exact.abs_eq, Bool.false_or,
    decide_eq_true_eq] using hbest

theorem abs_det_swapRows (s : LinearSystem n w K) (p q : Fin n) :
    |(s.swapRows p q).left.toMatrix.det| = |s.left.toMatrix.det| := by
  have hsubmatrix : (s.swapRows p q).left.toMatrix =
      s.left.toMatrix.submatrix (Equiv.swap p q) id := by
    ext i j
    rw [swapRows, mapRows, Block.toMatrix_ofFn, Matrix.of_apply, Matrix.submatrix_apply,
      Equiv.swap_apply_def]
    rfl
  rw [hsubmatrix, Matrix.det_permute, abs_mul]
  rcases Int.units_eq_one_or (Equiv.Perm.sign (Equiv.swap p q)) with h | h
  · simp [h]
  · simp [h]

/-- Eliminating a column divides the determinant by the pivot, up to the sign. -/
theorem abs_det_eliminate (hpivot : t.pivot k ≠ 0) :
    |t.left.toMatrix.det| = |t.pivot k| * |(t.eliminate k).left.toMatrix.det| := by
  rw [eliminate, det_clearColumn, det_divideRow, abs_mul, abs_inv, abs_det_swapRows,
    mul_inv_cancel_left₀ (abs_ne_zero.mpr hpivot)]

/-- The determinant is what the pivots so far leave of it. -/
theorem abs_det_after (s : LinearSystem n w K) {m : ℕ} (hm : m ≤ n)
    (h : ∀ j : Fin m, s.left.pivot (j.castLE hm) ≠ 0) :
    |s.left.toMatrix.det| =
      (∏ j : Fin m, |s.left.pivot (j.castLE hm)|) * |(s.after m).left.toMatrix.det| := by
  induction m with
  | zero =>
    rw [Fin.prod_univ_zero, one_mul]
    rfl
  | succ m ih =>
    have hpivot : (s.after m).pivot ⟨m, hm⟩ ≠ 0 := by
      rw [pivot_after s ⟨m, hm⟩]
      exact h (Fin.last m)
    rw [ih (by omega) fun j => h j.castSucc, Fin.prod_univ_castSucc, after_succ s hm,
      abs_det_eliminate hpivot, ← mul_assoc, pivot_after s ⟨m, hm⟩]
    rfl

/-- The coefficients of column `k` in the rows that have been used. -/
def above (t : LinearSystem n w K) (k j : Fin n) : K := if j < k then t.left j k else 0

omit [IsStrictOrderedRing K] in
/-- The columns that are done combine to what stands above the pivot. -/
theorem Reduced.mulVec_above (h : Reduced s t k) :
    t.left.toMatrix.mulVec (t.above k) = t.above k := by
  funext i
  have hterm : ∀ j, t.left i j * t.above k j = if i = j then t.above k i else 0 := by
    intro j
    by_cases hlt : j < k
    · rw [h.unit i j hlt, ite_mul, one_mul, zero_mul]
      apply ite_congr rfl _ fun _ => rfl
      rintro rfl
      rfl
    · rw [above, if_neg hlt, mul_zero]
      by_cases hij : i = j
      · rw [if_pos hij, above, if_neg (hij ▸ hlt)]
      · rw [if_neg hij]
  rw [Matrix.mulVec, dotProduct]
  simp only [Block.toMatrix_apply, hterm, Finset.sum_ite_eq, Finset.mem_univ, if_true]

/-- Without a pivot in the next column, that column is a combination of those that are done. -/
theorem Reduced.det_eq_zero (h : Reduced s t k) (hpivot : t.pivot k = 0) :
    t.left.toMatrix.det = 0 := by
  have hcolumn : t.left.toMatrix.mulVec (Pi.single k 1) = t.above k := by
    funext i
    rw [Matrix.mulVec_single_one, Matrix.col_apply, Block.toMatrix_apply, above]
    split
    · rfl
    · next hik =>
      have hle := t.abs_le_abs_pivot (not_lt.mp hik)
      rwa [hpivot, abs_zero, abs_nonpos_iff] at hle
  rw [← Matrix.exists_mulVec_eq_zero_iff]
  refine ⟨Pi.single k 1 - t.above k, ?_, ?_⟩
  · intro hzero
    have hk := congrFun hzero k
    simp [above] at hk
  · rw [Matrix.mulVec_sub, hcolumn, h.mulVec_above, sub_self]

end LinearSystem

/-- The determinant is the product of the pivots, up to its sign. -/
theorem Square.abs_det (m : Square n K) : |m.toMatrix.det| = ∏ k, |m.pivot k| := by
  let s : LinearSystem n 0 K := ⟨m, Block.zero n 0⟩
  by_cases h : ∃ k, m.pivot k = 0
  · -- the columns up to the first one without a pivot
    obtain ⟨k, hk, hfirst⟩ := WellFounded.has_min wellFounded_lt {k | m.pivot k = 0} h
    have hbefore : ∀ j : Fin n, j.val < k → m.pivot j ≠ 0 := fun j hj hzero => hfirst j hzero hj
    have hreduced : LinearSystem.Reduced s (s.after k) k :=
      LinearSystem.reduced_after k.isLt.le hbefore
    rw [LinearSystem.abs_det_after s k.isLt.le fun j => hbefore _ j.isLt,
      hreduced.det_eq_zero hk, abs_zero, mul_zero, eq_comm]
    exact Finset.prod_eq_zero (Finset.mem_univ k) (abs_eq_zero.mpr hk)
  · rw [not_exists] at h
    have hreduced : LinearSystem.Reduced s (s.after n) n :=
      LinearSystem.reduced_after le_rfl fun k _ => h k
    rw [LinearSystem.abs_det_after s le_rfl fun j => h j, hreduced.left_eq_one, Matrix.det_one,
      abs_one, mul_one]
    rfl

/-- The first pivot is the largest magnitude of its column. -/
theorem Square.columnMagnitude_first (m : Square (n + 1) K) :
    m.columnMagnitude 0 = |m.pivot 0| := by
  apply le_antisymm
  · apply Block.columnMagnitude_le (abs_nonneg _)
    intro i
    exact LinearSystem.abs_le_abs_pivot ⟨m, Block.zero (n + 1) 0⟩ (Fin.zero_le i)
  · exact m.abs_le_columnMagnitude _ 0

end Georeferencing
