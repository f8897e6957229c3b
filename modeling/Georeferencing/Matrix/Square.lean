import Georeferencing.Matrix.Elimination
import Georeferencing.Matrix.RowMajor

/-! # Square blocks

Determinants, products and inverses of the smallest sizes are closed formulas; from size four on
the inverse is found by elimination. An inverse is refused when the determinant is negligible
relative to the product of the column magnitudes, so that the units of the coordinates do not
matter. The tests for affine matrices and for the identity name each coefficient.
-/

namespace Georeferencing.Square

variable {α : Type}

/-- The one coefficient of a matrix of size one. -/
def of1 (m00 : α) : Square 1 α := ⟨#v[m00]⟩

def of2 (m00 m01 m10 m11 : α) : Square 2 α := ⟨#v[m00, m01, m10, m11]⟩

def of3 (m00 m01 m02 m10 m11 m12 m20 m21 m22 : α) : Square 3 α :=
  ⟨#v[m00, m01, m02, m10, m11, m12, m20, m21, m22]⟩

/-- The one coefficient. -/
def single (m : Square 1 α) : α := m 0 0

/-- A function of the coefficients in row-major order. -/
def withEntries3 {β : Type} (m : Square 3 α) (f : α → α → α → α → α → α → α → α → α → β) : β :=
  f (m 0 0) (m 0 1) (m 0 2) (m 1 0) (m 1 1) (m 1 2) (m 2 0) (m 2 1) (m 2 2)

variable [Scalar α]

def identity (n : Nat) : Square n α := Block.diagonal n n

def determinant2 (m : Square 2 α) : α := m 0 0 * m 1 1 - m 0 1 * m 1 0

def determinant3 (m : Square 3 α) : α :=
  m 0 0 * (m 1 1 * m 2 2 - m 1 2 * m 2 1) - m 0 1 * (m 1 0 * m 2 2 - m 1 2 * m 2 0)
    + m 0 2 * (m 1 0 * m 2 1 - m 1 1 * m 2 0)

/-- The product of the column magnitudes, which the determinant scales with. -/
def magnitudeProduct {n : Nat} (m : Square n α) : α :=
  Scalar.product ((List.finRange n).map m.columnMagnitude)

def inverse1? (m : Square 1 α) : Option (Square 1 α) :=
  if m 0 0 == 0 then none else some (of1 (1 / m 0 0))

def inverse2? (m : Square 2 α) : Option (Square 2 α) :=
  let det := determinant2 m
  if Scalar.vanishesBeside det (magnitudeProduct m) then none
  else some (of2 (m 1 1 / det) (-m 0 1 / det) (-m 1 0 / det) (m 0 0 / det))

/-- The adjugate over the determinant, which is expanded along the first row. -/
def inverse3? (m : Square 3 α) : Option (Square 3 α) :=
  let c00 := m 1 1 * m 2 2 - m 1 2 * m 2 1
  let c01 := m 1 2 * m 2 0 - m 1 0 * m 2 2
  let c02 := m 1 0 * m 2 1 - m 1 1 * m 2 0
  let det := m 0 0 * c00 + m 0 1 * c01 + m 0 2 * c02
  if Scalar.vanishesBeside det (magnitudeProduct m) then none
  else some (of3
    (c00 / det) ((m 0 2 * m 2 1 - m 0 1 * m 2 2) / det) ((m 0 1 * m 1 2 - m 0 2 * m 1 1) / det)
    (c01 / det) ((m 0 0 * m 2 2 - m 0 2 * m 2 0) / det) ((m 0 2 * m 1 0 - m 0 0 * m 1 2) / det)
    (c02 / det) ((m 0 1 * m 2 0 - m 0 0 * m 2 1) / det) ((m 0 0 * m 1 1 - m 0 1 * m 1 0) / det))

def inverse? : {n : Nat} → Square n α → Option (Square n α)
  | 1, m => inverse1? m
  | 2, m => inverse2? m
  | 3, m => inverse3? m
  | _, m => m.eliminationInverse?

def product2 (a b : Square 2 α) : Square 2 α :=
  Block.ofFn fun i j => a i 0 * b 0 j + a i 1 * b 1 j

def product3 (a b : Square 3 α) : Square 3 α :=
  Block.ofFn fun i j => a i 0 * b 0 j + a i 1 * b 1 j + a i 2 * b 2 j

/-- Euclidean norm of a column, by the most direct formula for its length. -/
def columnNorm [Elementary α] : {n : Nat} → Square n α → Fin n → α
  | 1, m, j => Scalar.abs (m 0 j)
  | 2, m, j => Elementary.hypot (m 0 j) (m 1 j)
  | 3, m, j => Elementary.sqrt (m 0 j * m 0 j + m 1 j * m 1 j + m 2 j * m 2 j)
  | _, m, j => Block.columnNorm m j

/-- Divides every column by its norm. -/
def unitColumns [Elementary α] {n : Nat} (m : Square n α) : Square n α :=
  m.divideColumns m.columnNorm

/-- Whether the last row is zero except for a trailing one. -/
def testAffine : {n : Nat} → Square n α → Bool
  | 1, m => m 0 0 == 1
  | 2, m => m 1 0 == 0 && m 1 1 == 1
  | 3, m => m 2 0 == 0 && m 2 1 == 0 && m 2 2 == 1
  | 4, m => m 3 0 == 0 && m 3 1 == 0 && m 3 2 == 0 && m 3 3 == 1
  | n, m => RowMajor.isAffine n n m.elements.toArray

/-- Whether there are ones on the diagonal and zeros elsewhere. The last row of the sizes three and
four is that of an affine matrix. -/
def testIdentity : {n : Nat} → Square n α → Bool
  | 1, m => m 0 0 == 1
  | 2, m => m 0 0 == 1 && m 0 1 == 0 && m 1 0 == 0 && m 1 1 == 1
  | 3, m =>
    m 0 0 == 1 && m 0 1 == 0 && m 0 2 == 0 && m 1 0 == 0 && m 1 1 == 1 && m 1 2 == 0 &&
      m.testAffine
  | 4, m =>
    m 0 0 == 1 && m 0 1 == 0 && m 0 2 == 0 && m 0 3 == 0 && m 1 0 == 0 && m 1 1 == 1 &&
      m 1 2 == 0 && m 1 3 == 0 && m 2 0 == 0 && m 2 1 == 0 && m 2 2 == 1 && m 2 3 == 0 &&
      m.testAffine
  | n, m => RowMajor.isIdentity n n m.elements.toArray

end Georeferencing.Square
