import Georeferencing.Proofs.Matrix.Copies
import Georeferencing.Proofs.Matrix.Inverse

/-! # Affine matrices

The last row of an affine matrix is that of the identity, so that multiplying it by another matrix
gives the last row of the other one. A product of such matrices is of their kind, and so is an
inverse, whichever formula or elimination it comes from: the last row of the matrix may be
multiplied by the inverse, which gives that of the identity and leaves that of the inverse.
-/

namespace Georeferencing

open Matrix

/-! ## Last rows -/

section Rows

variable {K : Type} [Field K] {n : ℕ} {a b x : Matrix (Fin (n + 1)) (Fin (n + 1)) K}

/-- The last row is that of the identity. -/
def EndsInUnit (a : Matrix (Fin (n + 1)) (Fin (n + 1)) K) : Prop :=
  a (Fin.last n) = Pi.single (Fin.last n) 1

theorem endsInUnit_one : EndsInUnit (1 : Matrix (Fin (n + 1)) (Fin (n + 1)) K) := by
  funext j
  rw [Matrix.one_apply, Pi.single_apply]
  exact if_congr eq_comm rfl rfl

/-- The last row of a product is that of the second factor if the first one ends in a unit row. -/
theorem EndsInUnit.last_mul (ha : EndsInUnit a) (b : Matrix (Fin (n + 1)) (Fin (n + 1)) K) :
    (a * b) (Fin.last n) = b (Fin.last n) := by
  rw [mul_apply_eq_vecMul, ha, single_one_vecMul]
  rfl

theorem EndsInUnit.mul (ha : EndsInUnit a) (hb : EndsInUnit b) : EndsInUnit (a * b) :=
  (ha.last_mul b).trans hb

theorem EndsInUnit.of_mul_eq_one (ha : EndsInUnit a) (h : x * a = 1) : EndsInUnit x := by
  have hright : a * x = 1 := mul_eq_one_comm.mp h
  rw [EndsInUnit, ← ha.last_mul x, hright]
  exact endsInUnit_one

end Rows

variable {K : Type} [Field K] [LinearOrder K] {n : ℕ}

namespace HeldMatrix

/-- An affine matrix of size `n` that lists all its coefficients, whatever holds it. -/
structure AffineOfSize (n : ℕ) (m : HeldMatrix K) : Prop where
  complete : m.Complete
  numRow : m.numRow = n
  affine : m.isAffine = true

instance (n : ℕ) (m : HeldMatrix K) : Decidable (m.AffineOfSize n) :=
  decidable_of_iff (m.Complete ∧ m.numRow = n ∧ m.isAffine = true)
    ⟨fun h => ⟨h.1, h.2.1, h.2.2⟩, fun h => ⟨h.complete, h.numRow, h.affine⟩⟩

theorem isAffine_iff_endsInUnit {m : HeldMatrix K} (h : m.Complete) (hr : m.numRow = n + 1)
    (hc : m.numCol = n + 1) : m.isAffine = true ↔ EndsInUnit (m.toMatrix (n + 1) (n + 1)) := by
  have hcopied : ∀ j, m.copied n j = m.elements.getD (n * m.numCol + j) 0 := fun j => if_pos h
  have hunit (j : ℕ) (hj : j < n + 1) : (Pi.single (Fin.last n) 1 : Fin (n + 1) → K) ⟨j, hj⟩ =
      if j + 1 = n + 1 then 1 else 0 := by
    rw [Pi.single_apply]
    exact if_congr (by rw [Fin.ext_iff, Fin.val_last, Nat.succ_inj]) rfl rfl
  rw [isAffine_iff_copied h, hr, hc, EndsInUnit, funext_iff, Fin.forall_iff]
  simp only [Grid.IsAffine, Nat.add_sub_cancel, hcopied, beq_iff_eq]
  constructor
  · rintro ⟨-, -, hrow⟩ j hj
    exact (hrow j hj).trans (hunit j hj).symm
  · intro hrow
    exact ⟨trivial, n.succ_ne_zero, fun j hj => (hrow j hj).trans (hunit j hj)⟩

namespace AffineOfSize

variable {a b m : HeldMatrix K}

theorem numCol (h : m.AffineOfSize n) : m.numCol = n := by
  have haffine := h.affine
  simp only [isAffine, RowMajor.isAffine, Bool.and_eq_true, beq_iff_eq] at haffine
  exact haffine.1.1.1.symm.trans h.numRow

/-- An affine matrix has a last row. -/
theorem exists_succ (h : m.AffineOfSize n) : ∃ k, n = k + 1 := by
  have haffine := h.affine
  simp only [isAffine, RowMajor.isAffine, Bool.and_eq_true, bne_iff_ne, h.numRow] at haffine
  exact Nat.exists_eq_succ_of_ne_zero haffine.1.1.2

theorem endsInUnit (h : m.AffineOfSize (n + 1)) : EndsInUnit (m.toMatrix (n + 1) (n + 1)) :=
  (isAffine_iff_endsInUnit h.complete h.numRow h.numCol).mp h.affine

theorem of_endsInUnit (h : m.Complete) (hr : m.numRow = n + 1) (hc : m.numCol = n + 1)
    (hunit : EndsInUnit (m.toMatrix (n + 1) (n + 1))) : m.AffineOfSize (n + 1) :=
  ⟨h, hr, (isAffine_iff_endsInUnit h hr hc).mpr hunit⟩

/-- The same coefficients under the same shape, whatever holds them. -/
theorem of_elements (h : a.AffineOfSize n) (hr : b.numRow = a.numRow) (hc : b.numCol = a.numCol)
    (helements : b.elements = a.elements) : b.AffineOfSize n where
  complete := by
    rw [Complete, helements, hr, hc]
    exact h.complete
  numRow := hr.trans h.numRow
  affine := by
    rw [isAffine, hr, hc, helements]
    exact h.affine

/-- A stored matrix of a matrix that ends in a unit row is affine. -/
theorem ofMatrix {a : Matrix (Fin (n + 1)) (Fin (n + 1)) K} (h : EndsInUnit a) :
    (stored (.ofMatrix a)).AffineOfSize (n + 1) := by
  have hread : (stored (.ofMatrix a)).toMatrix (n + 1) (n + 1) = a :=
    StoredMatrix.toMatrix_ofMatrix a
  apply of_endsInUnit
  · exact StoredMatrix.consistent_ofBlock _
  · exact StoredMatrix.numRow_ofBlock _
  · exact StoredMatrix.numCol_ofBlock _
  · rwa [hread]

theorem product (ha : a.AffineOfSize n) (hb : b.AffineOfSize n) :
    ∃ x, a.product b = .ok x ∧ (stored x).AffineOfSize n := by
  obtain ⟨k, rfl⟩ := ha.exists_succ
  exact ⟨_, product_eq_ofMatrix a b ha.numRow ha.numCol hb.numRow hb.numCol,
    ofMatrix (ha.endsInUnit.mul hb.endsInUnit)⟩

/-- The closed formulas multiply as the general sum does. -/
theorem mul {a : StoredMatrix K} (ha : (stored a).AffineOfSize n) (hb : b.AffineOfSize n) :
    ∃ x, a.mul b = .ok x ∧ (stored x).AffineOfSize n := by
  rw [StoredMatrix.mul_eq_product fun x => by rw [neg_zero, zero_add]]
  exact ha.product hb

/-- The closed formula for a product does not depend on what holds the squares. -/
theorem mul_square (hn : IsSmall n) {s t x : Square n K} (hs : (square n s).AffineOfSize n)
    (ht : (square n t).AffineOfSize n)
    (h : (StoredMatrix.small n hn s).mul (stored (.small n hn t)) = .ok (.small n hn x)) :
    (square n x).AffineOfSize n := by
  have hs' : (stored (.small n hn s)).AffineOfSize n := hs.of_elements rfl rfl rfl
  have ht' : (stored (.small n hn t)).AffineOfSize n := ht.of_elements rfl rfl rfl
  obtain ⟨y, hy, haffine⟩ := hs'.mul ht'
  obtain rfl : y = .small n hn x := Except.ok.inj (hy.symm.trans h)
  exact haffine.of_elements rfl rfl rfl

variable [IsStrictOrderedRing K]

theorem inverse {a x : StoredMatrix K} (ha : (stored a).AffineOfSize n) (h : a.inverse = .ok x) :
    (stored x).AffineOfSize n := by
  obtain ⟨k, rfl⟩ := ha.exists_succ
  obtain ⟨-, hrow, hcol, hleft⟩ := StoredMatrix.inverse_ok h
  have hsize : a.numRow = k + 1 := ha.numRow
  rw [hsize] at hrow hcol hleft
  exact of_endsInUnit (StoredMatrix.canonical_inverse h).consistent hrow hcol
    (ha.endsInUnit.of_mul_eq_one hleft)

/-- A square that is not stored is inverted by the same formulas. -/
theorem inverse_square {s x : Square n K} (hs : (square n s).AffineOfSize n)
    (h : s.inverse? = some x) : (square n x).AffineOfSize n := by
  obtain ⟨k, rfl⟩ := hs.exists_succ
  have hread (b : Square (k + 1) K) :
      (square (k + 1) b).toMatrix (k + 1) (k + 1) = b.toMatrix := b.rowMajor_toMatrix
  have hunit := hs.endsInUnit
  rw [hread] at hunit
  refine of_endsInUnit x.elements.size_toArray rfl rfl ?_
  rw [hread]
  exact hunit.of_mul_eq_one (Square.inverse?_mul h)

end AffineOfSize

end HeldMatrix

end Georeferencing
