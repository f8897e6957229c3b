import Georeferencing.Scalar

/-! # Row-major arrays

Tests on the coefficients of a matrix, listed row by row, that need only its shape.
-/

namespace Georeferencing.RowMajor

variable {α : Type} [Scalar α]

/-- Whether place `k` in an array of rows of length `numCol` is on the diagonal. -/
def isDiagonal (numCol k : Nat) : Bool := k / numCol == k % numCol

/-- A square matrix whose last row is zero except for a trailing one. -/
def isAffine (numRow numCol : Nat) (elements : Array α) : Bool :=
  let last := elements.toList.drop ((numRow - 1) * numCol)
  numRow == numCol && numRow != 0 &&
    last.getLast?.any (· == 1) && last.dropLast.all (· == 0)

/-- A square matrix with ones on the diagonal and zeros elsewhere. -/
def isIdentity (numRow numCol : Nat) (elements : Array α) : Bool :=
  numRow == numCol &&
    elements.toList.zipIdx.all fun (e, k) => e == if isDiagonal numCol k then 1 else 0

/-- A square matrix that differs nowhere from the identity by more than `tolerance`. -/
def isIdentityWithin (tolerance : α) (numRow numCol : Nat) (elements : Array α) : Bool :=
  numRow == numCol &&
    elements.toList.zipIdx.all fun (e, k) =>
      decide (Scalar.abs (if isDiagonal numCol k then e - 1 else e) ≤ tolerance)

end Georeferencing.RowMajor
