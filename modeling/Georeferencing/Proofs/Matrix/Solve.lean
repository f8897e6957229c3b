import Georeferencing.Proofs.Matrix.Inverse
import Georeferencing.Proofs.Matrix.Pivots

/-! # Solving and inverting

Solving tests every pivot against its column, a closed formula for the inverse tests the determinant
against the product of all columns. For sizes one and two these tests refuse the same matrices. For
size three they do not: a product of two small pivots may be negligible where neither of them is,
and a negligible pivot may be made up for by a large one. What both accept has one solution.
-/

namespace Georeferencing

variable {n w : ℕ}

section Tests

variable {α : Type} [Scalar α]

/-- Some pivot can not be told from zero beside its column. -/
def Square.HasNegligiblePivot (m : Square n α) : Prop :=
  ∃ k, Scalar.vanishesBeside (m.pivot k) (m.columnMagnitude k) = true

theorem LinearSystem.solve?_eq_none {s : LinearSystem n w α} :
    s.solve? = none ↔ s.left.HasNegligiblePivot := by
  rw [Option.eq_none_iff_forall_ne_some, Square.HasNegligiblePivot]
  simp only [ne_eq, solve?_eq_some, pivot_after, not_and, forall_eq', not_forall, not_not]

end Tests

variable {K : Type} [Field K] [LinearOrder K]

namespace Square

theorem magnitudeProduct_eq (m : Square n K) : m.magnitudeProduct = ∏ k, m.columnMagnitude k := by
  rw [magnitudeProduct, Exact.product_eq, Fin.prod_univ_def]

variable [IsStrictOrderedRing K]

theorem hasNegligiblePivot_iff {m : Square n K} :
    m.HasNegligiblePivot ↔ ∃ k, |m.pivot k| ≤ Scalar.epsilon * m.columnMagnitude k := by
  simp only [HasNegligiblePivot, Exact.vanishesBeside_iff]

/-- A first pivot is only negligible in a column of zeros. -/
theorem pivot_first_negligible_iff (m : Square (n + 1) K) :
    |m.pivot 0| ≤ Scalar.epsilon * m.columnMagnitude 0 ↔ m.pivot 0 = 0 := by
  rw [columnMagnitude_first]
  constructor
  · intro h
    by_contra hne
    have hpos := abs_pos.mpr hne
    exact absurd h (not_le.mpr (mul_lt_of_lt_one_left hpos Exact.epsilon_lt_one))
  · intro h
    rw [h, abs_zero, mul_zero]

theorem inverse1?_eq_none {m : Square 1 K} : m.inverse1? = none ↔ m.HasNegligiblePivot := by
  have hpivot : m.pivot 0 = m 0 0 :=
    congrArg (m.entry · 0) (Subsingleton.elim (α := Fin 1) _ 0)
  rw [hasNegligiblePivot_iff, Fin.exists_fin_one, pivot_first_negligible_iff, hpivot, inverse1?]
  simp

/-- A determinant is tested against the columns as the product of the pivots is. -/
theorem vanishesBeside_magnitudeProduct {m : Square n K} :
    Scalar.vanishesBeside m.toMatrix.det m.magnitudeProduct = true ↔
      ∏ k, |m.pivot k| ≤ Scalar.epsilon * ∏ k, m.columnMagnitude k := by
  rw [Exact.vanishesBeside_iff, abs_det, magnitudeProduct_eq]

/-- Below size three, a pivot is negligible if the pivots as a whole are. -/
theorem hasNegligiblePivot_iff_prod {m : Square n K} (hn : n < 3) :
    m.HasNegligiblePivot ↔ ∏ k, |m.pivot k| ≤ Scalar.epsilon * ∏ k, m.columnMagnitude k := by
  rw [hasNegligiblePivot_iff]
  match n, hn with
  | 0, _ => simp [(Exact.epsilon_lt_one (K := K)).not_ge]
  | 1, _ => rw [Fin.exists_fin_one, Fin.prod_univ_one, Fin.prod_univ_one]
  | 2, _ =>
    rw [Fin.exists_fin_two, pivot_first_negligible_iff, Fin.prod_univ_two, Fin.prod_univ_two,
      columnMagnitude_first, mul_left_comm]
    by_cases hzero : m.pivot 0 = 0
    · simp [hzero]
    · rw [mul_le_mul_iff_right₀ (abs_pos.mpr hzero)]
      simp [hzero]

theorem inverse2?_eq_none {m : Square 2 K} : m.inverse2? = none ↔ m.HasNegligiblePivot := by
  rw [hasNegligiblePivot_iff_prod (by omega), ← vanishesBeside_magnitudeProduct]
  simp [inverse2?, determinant2_eq]

theorem inverse3?_eq_none {m : Square 3 K} :
    m.inverse3? = none ↔ ∏ k, |m.pivot k| ≤ Scalar.epsilon * ∏ k, m.columnMagnitude k := by
  rw [← vanishesBeside_magnitudeProduct]
  simp [inverse3?, cofactors3_eq]

/-- Except for size three, an inverse is refused if a pivot is negligible. -/
theorem inverse?_eq_none {m : Square n K} (hn : n ≠ 3) :
    m.inverse? = none ↔ m.HasNegligiblePivot := by
  unfold inverse?
  split
  · exact inverse1?_eq_none
  · exact inverse2?_eq_none
  · exact absurd rfl hn
  · exact LinearSystem.solve?_eq_none

end Square

namespace HeldMatrix

/-- The coefficients that elimination reads. -/
def toSquare (a : HeldMatrix K) : Square a.numRow K := .ofArray _ _ a.elements

/-- The matrix is not square, or a pivot is negligible. -/
def EliminationFails (a : HeldMatrix K) : Prop :=
  a.numCol ≠ a.numRow ∨ a.toSquare.HasNegligiblePivot

variable {a b : HeldMatrix K}

theorem solve_eq (hrows : b.numRow = a.numRow) :
    a.solve b =
      if a.numCol = a.numRow then
        match LinearSystem.solve? ⟨a.toSquare, .ofArray a.numRow b.numCol b.elements⟩ with
        | some x => .ok (.ofBlock x)
        | none => .error .nonInvertible
      else .error .nonInvertible := by
  rw [solve, checkRows, if_pos hrows]
  rfl

theorem solve_refused_iff (hrows : b.numRow = a.numRow) :
    a.solve b = .error .nonInvertible ↔ a.EliminationFails := by
  rw [solve_eq hrows, EliminationFails]
  split
  · next hshape =>
    have hnone := LinearSystem.solve?_eq_none
      (s := ⟨a.toSquare, Block.ofArray a.numRow b.numCol b.elements⟩)
    rw [or_iff_right (not_not.mpr hshape), ← hnone]
    split
    · next hx => simp [hx]
    · next hx => simp [hx]
  · next hshape => exact iff_of_true rfl (Or.inl hshape)

variable [IsStrictOrderedRing K]

theorem solve_ok {s : StoredMatrix K} (hrows : b.numRow = a.numRow) (h : a.solve b = .ok s) :
    ∃ e : Matrix (Fin a.numRow) (Fin a.numRow) K,
      e * a.toMatrix a.numRow a.numRow = 1 ∧
        s = .ofMatrix (e * b.toMatrix a.numRow b.numCol) := by
  rw [solve_eq hrows] at h
  split at h
  · next hshape =>
    split at h
    · next x hx =>
      cases h
      obtain ⟨e, he, hsolution⟩ := LinearSystem.solve_spec hx
      rw [Block.toMatrix_ofArray] at hsolution
      rw [toSquare, Block.toMatrix_ofArray] at he
      refine ⟨e, ?_, ?_⟩
      · rwa [toMatrix, hshape]
      · rw [toMatrix, ← hsolution, StoredMatrix.ofMatrix_toMatrix]
    · cases h
  · cases h

end HeldMatrix

namespace StoredMatrix

omit [Field K] [LinearOrder K] in
theorem ofElements_ne_refused {r c : ℕ} {elements : Array K} :
    ofElements r c elements ≠ .error .nonInvertible := by
  unfold ofElements
  split
  · simp
  · simp

theorem eliminationFails_small (h : IsSmall n) (m : Square n K) :
    (HeldMatrix.stored (small n h m)).EliminationFails ↔ m.HasNegligiblePivot := by
  have hread : (HeldMatrix.stored (small n h m)).toSquare = m := m.ofArray_elements
  change n ≠ n ∨ Square.HasNegligiblePivot (n := n) (HeldMatrix.stored (small n h m)).toSquare ↔ _
  rw [hread, or_iff_right (not_not.mpr rfl)]

theorem inverse_small_refused_iff (h : IsSmall n) (m : Square n K) :
    (small n h m).inverse = .error .nonInvertible ↔ m.inverse? = none := by
  rw [inverse]
  cases m.inverse? with
  | none => simp
  | some x => simp

theorem solve1_eq {m : Square 1 K} {b : HeldMatrix K} (hrows : b.numRow = 1) :
    m.solve1 b = if m 0 0 = 0 then .error .nonInvertible
      else ofElements 1 b.numCol (b.elements.map (· / m 0 0)) := by
  rw [Square.solve1, HeldMatrix.checkRows, if_pos hrows]
  change (if (m 0 0 == 0) = true then _ else _) = _
  simp only [beq_iff_eq]
  rfl

theorem ofElements_ok {r c : ℕ} {elements : Array K} {s : StoredMatrix K}
    (h : ofElements r c elements = .ok s) :
    s = ofMatrix (RowMajor.toMatrix c elements r c) := by
  unfold ofElements at h
  split at h
  · next block hblock =>
    cases h
    unfold Block.ofElements? at hblock
    split at hblock
    · cases hblock
      rw [← ofMatrix_toMatrix, ← Block.rowMajor_toMatrix]
    · cases hblock
  · cases h

/-- The solution for a matrix of size one is its reciprocal times the right side. -/
theorem solve1_ok {m : Square 1 K} {b : HeldMatrix K} {s : StoredMatrix K} (hrows : b.numRow = 1)
    (h : m.solve1 b = .ok s) : ∃ e : Matrix (Fin 1) (Fin 1) K,
      e * m.toMatrix = 1 ∧ s = ofMatrix (e * b.toMatrix 1 b.numCol) := by
  rw [solve1_eq hrows] at h
  split at h
  · cases h
  · next hzero =>
    refine ⟨Matrix.of fun _ _ => (m 0 0)⁻¹, ?_, ?_⟩
    · ext i j
      rw [Subsingleton.elim i 0, Subsingleton.elim j 0, Matrix.mul_apply, Fin.sum_univ_one]
      exact inv_mul_cancel₀ hzero
    · rw [ofElements_ok h]
      congr 1
      ext i j
      rw [Matrix.mul_apply, Fin.sum_univ_one, Matrix.of_apply, HeldMatrix.toMatrix,
        RowMajor.toMatrix, RowMajor.toMatrix, Subsingleton.elim i 0, ← div_eq_inv_mul]
      simp only [Array.getD_eq_getD_getElem?, Array.getElem?_map]
      cases b.elements[((0 : Fin 1) : ℕ) * b.numCol + j]? with
      | none => simp
      | some e => rfl

variable [IsStrictOrderedRing K]

theorem inverse_refused_iff {a : StoredMatrix K} (h : ∀ m, a ≠ small 3 isSmall_three m) :
    a.inverse = .error .nonInvertible ↔ (HeldMatrix.stored a).EliminationFails := by
  cases a with
  | small n hn m =>
    have hsize : n ≠ 3 := by
      rintro rfl
      exact h m rfl
    rw [eliminationFails_small, ← Square.inverse?_eq_none hsize, inverse_small_refused_iff]
  | flat m =>
    change m.inverse = _ ↔ m.numCol ≠ m.numRow ∨
      Square.HasNegligiblePivot (Block.ofArray m.numRow m.numRow m.elements)
    rw [FlatMatrix.inverse, Square.eliminationInverse?]
    split
    · next hshape =>
      have hnone := LinearSystem.solve?_eq_none
        (s := ⟨Block.ofArray m.numRow m.numRow m.elements, Block.diagonal m.numRow m.numRow⟩)
      rw [or_iff_right (not_not.mpr hshape.symm), ← hnone]
      split
      · next hx => simp [hx]
      · next hx => simp [hx]
    · next hshape => exact iff_of_true rfl (Or.inl (Ne.symm hshape))

/-- A square array is refused for a negligible pivot, whatever its size. -/
theorem inverse_flat_refused_iff {elements : Array K} :
    (flat ⟨n, n, elements⟩).inverse = .error .nonInvertible ↔
      Square.HasNegligiblePivot (Block.ofArray n n elements) := by
  rw [inverse_refused_iff (fun m h => by cases h), HeldMatrix.EliminationFails]
  exact or_iff_right (not_not.mpr rfl)

/-- A square matrix that is held as its shape asks for is refused for the reasons of its size. -/
theorem inverse_ofBlock_refused_iff {b : Square n K} :
    (ofBlock b).inverse = .error .nonInvertible ↔
      if n = 3 then ∏ k, |b.pivot k| ≤ Scalar.epsilon * ∏ k, b.columnMagnitude k
      else b.HasNegligiblePivot := by
  by_cases hsmall : IsSmall n
  · rw [ofBlock_square hsmall, inverse_small_refused_iff]
    split
    · next hn =>
      subst hn
      exact Square.inverse3?_eq_none
    · next hn => exact Square.inverse?_eq_none hn
  · have hn : n ≠ 3 := by
      rintro rfl
      exact hsmall isSmall_three
    rw [ofBlock, dif_neg (fun h => hsmall h.2), if_neg hn, FlatMatrix.ofBlock,
      inverse_flat_refused_iff, Block.ofArray_elements]

theorem solve_refused_iff {a : StoredMatrix K} {b : HeldMatrix K} (hrows : b.numRow = a.numRow) :
    a.solve b = .error .nonInvertible ↔ (HeldMatrix.stored a).EliminationFails := by
  unfold solve
  split
  · next hn m =>
    rw [eliminationFails_small, ← Square.inverse1?_eq_none, solve1_eq hrows, Square.inverse1?]
    by_cases hzero : m 0 0 = 0
    · simp [hzero]
    · simp [hzero, ofElements_ne_refused]
  · exact HeldMatrix.solve_refused_iff hrows

theorem solve_ok {a s : StoredMatrix K} {b : HeldMatrix K} (hrows : b.numRow = a.numRow)
    (h : a.solve b = .ok s) : ∃ e : Matrix (Fin a.numRow) (Fin a.numRow) K,
      e * a.toMatrix a.numRow a.numRow = 1 ∧ s = ofMatrix (e * b.toMatrix a.numRow b.numCol) := by
  unfold solve at h
  split at h
  · next hn m =>
    obtain ⟨e, he, hs⟩ := solve1_ok hrows h
    rw [← toMatrix_small hn m] at he
    exact ⟨e, he, hs⟩
  · exact HeldMatrix.solve_ok hrows h

/-- What solving gives is the product with the inverse. -/
theorem solve_eq_inverse_mul {a x s : StoredMatrix K} {b : HeldMatrix K}
    (hrows : b.numRow = a.numRow) (hx : a.inverse = .ok x) (hs : a.solve b = .ok s) :
    x.mul b = .ok s := by
  obtain ⟨-, hrow, hcol, hleft⟩ := inverse_ok hx
  obtain ⟨e, he, rfl⟩ := solve_ok hrows hs
  rw [mul_held_eq x b hrow hcol hrows rfl, left_inv_eq_right_inv he (mul_eq_one_comm.mp hleft)]

/-- Solving gives the product with the inverse where both succeed. Both refuse the same matrices,
except among those held as a block of size three: solving refuses these if a pivot is negligible
beside its column, inverting if the product of the pivots is beside that of the columns. -/
theorem solve_inverse_spec (a : StoredMatrix K) (b : HeldMatrix K) (hrows : b.numRow = a.numRow) :
    (∀ x s, a.inverse = .ok x → a.solve b = .ok s → x.mul b = .ok s) ∧
    ((∀ m, a ≠ small 3 isSmall_three m) →
      (a.solve b = .error .nonInvertible ↔ a.inverse = .error .nonInvertible)) ∧
    ∀ m, a = small 3 isSmall_three m →
      (a.solve b = .error .nonInvertible ↔
        ∃ k, |m.pivot k| ≤ Scalar.epsilon * m.columnMagnitude k) ∧
      (a.inverse = .error .nonInvertible ↔
        ∏ k, |m.pivot k| ≤ Scalar.epsilon * ∏ k, m.columnMagnitude k) := by
  refine ⟨fun x s => solve_eq_inverse_mul hrows, ?_, ?_⟩
  · intro h
    rw [solve_refused_iff hrows, inverse_refused_iff h]
  · rintro m rfl
    rw [solve_refused_iff hrows, eliminationFails_small, Square.hasNegligiblePivot_iff,
      inverse_small_refused_iff]
    exact ⟨Iff.rfl, Square.inverse3?_eq_none⟩

/-- Two small pivots, which solving accepts, and a negligible pivot before a large one, which
inverting accepts. -/
theorem solve_inverse_spec_near_singular :
    let d : ℚ := 1 / 2 ^ 30
    let m : Square 3 ℚ := .of3 1 1 1 0 d 0 0 0 d
    let m' : Square 3 ℚ := .of3 1 1 (-1) 0 Scalar.epsilon 0 1 1 1
    let b : HeldMatrix ℚ := .flat ⟨3, 1, #[3, d, d]⟩
    b.numRow = 3 ∧
      (small 3 isSmall_three m).inverse = .error .nonInvertible ∧
      (small 3 isSmall_three m).solve b ≠ .error .nonInvertible ∧
      (small 3 isSmall_three m').inverse ≠ .error .nonInvertible ∧
      (small 3 isSmall_three m').solve b = .error .nonInvertible := by
  intro d m m' b
  obtain ⟨hsolve, hinverse⟩ := (solve_inverse_spec (small 3 isSmall_three m) b rfl).2.2 m rfl
  obtain ⟨hsolve', hinverse'⟩ := (solve_inverse_spec (small 3 isSmall_three m') b rfl).2.2 m' rfl
  refine ⟨rfl, hinverse.mpr ?_, hsolve.not.mpr ?_, hinverse'.not.mpr ?_, hsolve'.mpr ?_⟩
  · decide +kernel
  · decide +kernel
  · decide +kernel
  · decide +kernel

end StoredMatrix

end Georeferencing
