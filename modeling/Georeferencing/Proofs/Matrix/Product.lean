import Georeferencing.Proofs.Double
import Georeferencing.Proofs.Matrix.Algebra

/-! # One product

A product of stored matrices by closed formulas is the product coefficient by coefficient, in any
arithmetic in which minus zero is neutral. No sum is rearranged, so this holds of doubles too.
-/

namespace Georeferencing

section Arithmetic

variable {α : Type} [Scalar α]

/-- A product fails for shapes that do not fit and for no other reason. -/
theorem HeldMatrix.product_mismatched (a b : HeldMatrix α) (h : b.numRow ≠ a.numCol) :
    a.product b = .error (.mismatchedSize a.numCol b.numRow b.numCol) := by
  rw [product, checkRows, if_neg h]
  rfl

theorem HeldMatrix.product_fits (a b : HeldMatrix α) (h : b.numRow = a.numCol) :
    ∃ x, a.product b = .ok x ∧ x.Canonical ∧ x.numRow = a.numRow ∧ x.numCol = b.numCol := by
  rw [product, checkRows, if_pos h]
  exact ⟨_, rfl, StoredMatrix.canonical_ofBlock _, StoredMatrix.numRow_ofBlock _,
    StoredMatrix.numCol_ofBlock _⟩

end Arithmetic

/-- The closed formulas give what the product coefficient by coefficient gives, whatever holds the
second operand: the same failure, or the same coefficients in the same storage. -/
theorem StoredMatrix.mul_spec :
    (∀ {α : Type} [Scalar α], (∀ x : α, -0 + x = x) →
      ∀ (a : StoredMatrix α) (b : HeldMatrix α),
        a.mul b = (HeldMatrix.stored a).product b ∧
        (b.numRow ≠ a.numCol →
          a.mul b = .error (.mismatchedSize a.numCol b.numRow b.numCol)) ∧
        (b.numRow = a.numCol →
          ∃ x, a.mul b = .ok x ∧ x.Canonical ∧ x.numRow = a.numRow ∧ x.numCol = b.numCol)) ∧
    ∀ (a : StoredMatrix Float) (b : HeldMatrix Float),
      a.mul b = (HeldMatrix.stored a).product b := by
  constructor
  · intro α _ hzero a b
    rw [mul_eq_product hzero a b]
    exact ⟨rfl, HeldMatrix.product_mismatched (.stored a) b, HeldMatrix.product_fits (.stored a) b⟩
  · exact mul_eq_product Double.neg_zero_add

/-- Infinities, a minus zero and what is not a number, in two blocks of size two. -/
theorem StoredMatrix.mul_spec_special :
    let a : StoredMatrix Float := .small 2 (by decide) (.of2 (-0) 0 Scalar.infinity 1)
    let b : StoredMatrix Float := .small 2 (by decide) (.of2 1 0 Scalar.nan (-0))
    (∀ x : Float, -0 + x = x) ∧
      a.mul (.stored b) = (HeldMatrix.stored a).product (.stored b) ∧
      a.mul (.flat ⟨1, 2, #[1, 2]⟩) = .error (.mismatchedSize 2 1 2) := by
  intro a b
  have hzero : ∀ x : Float, -0 + x = x := Double.neg_zero_add
  exact ⟨hzero, (mul_spec.1 hzero a (.stored b)).1,
    (mul_spec.1 hzero a (.flat ⟨1, 2, #[1, 2]⟩)).2.1 (by decide)⟩

end Georeferencing
