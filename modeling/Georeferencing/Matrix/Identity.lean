import Georeferencing.Matrix.Writing

/-! # Identities as they are tested and made

A matrix is tested in the way of its storage, for being affine as well as for the identity. The
identity of the smallest sizes is listed; from size four on, ones are written into zeros.
-/

namespace Georeferencing

variable {α : Type} [Scalar α]

namespace StoredMatrix

/-- The test of the storage for the last row of an affine matrix. -/
def testAffine : StoredMatrix α → Bool
  | small _ _ m => m.testAffine
  | flat m => RowMajor.isAffine m.numRow m.numCol m.elements

/-- The test of the storage for the identity. -/
def testIdentity : StoredMatrix α → Bool
  | small _ _ m => m.testIdentity
  | flat m => RowMajor.isIdentity m.numRow m.numCol m.elements

/-- Ones on the diagonal, from the first row to the last. -/
def planDiagonal (size : Nat) : List (Except StepFault (CellWrite α)) :=
  (List.range size).map fun k => .ok ⟨k, k, 1⟩

def buildIdentity : Nat → Except StepFault (StoredMatrix α)
  | 1 => .ok (small 1 (by decide) (.of1 1))
  | 2 => .ok (small 2 (by decide) (.of2 1 0 0 1))
  | 3 => .ok (small 3 isSmall_three (.of3 1 0 0 0 1 0 0 0 1))
  | 4 => (small 4 (by decide) (.zero 4 4)).carryOut (planDiagonal 4)
  | n => (flat (.filled n n false)).carryOut (planDiagonal n)

end StoredMatrix

namespace HeldMatrix

/-- The test of the holder for the last row of an affine matrix; types from outside are tested at
the end of their list. -/
def testAffine : HeldMatrix α → Bool
  | stored m => m.testAffine
  | square _ m => m.testAffine
  | m => RowMajor.isAffine m.numRow m.numCol m.elements

/-- The test of the holder for the identity; types from outside are tested at the places of their
list. -/
def testIdentity : HeldMatrix α → Bool
  | stored m => m.testIdentity
  | square _ m => m.testIdentity
  | m => RowMajor.isIdentity m.numRow m.numCol m.elements

end HeldMatrix

end Georeferencing
