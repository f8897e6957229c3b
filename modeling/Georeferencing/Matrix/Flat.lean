import Georeferencing.Matrix.Elimination

/-! # Flat matrices

A matrix of any shape, its coefficients in one row-major array. The number of coefficients is that
of the shape in a consistent matrix, which is what `ofBlock` and `ofElements` make.
-/

namespace Georeferencing

structure FlatMatrix (α : Type) where
  numRow : Nat
  numCol : Nat
  elements : Array α
deriving DecidableEq

namespace FlatMatrix

variable {α : Type}

/-- As many coefficients as the shape asks for. -/
def Consistent (m : FlatMatrix α) : Prop := m.elements.size = m.numRow * m.numCol

instance (m : FlatMatrix α) : Decidable m.Consistent := inferInstanceAs (Decidable (_ = _))

def ofBlock {r c : Nat} (b : Block r c α) : FlatMatrix α := ⟨r, c, b.elements.toArray⟩

theorem consistent_ofBlock {r c : Nat} (b : Block r c α) : (ofBlock b).Consistent := by
  simp [Consistent, ofBlock]

def ofElements (numRow numCol : Nat) (elements : Array α) : Except MatrixError (FlatMatrix α) :=
  if elements.size = numRow * numCol then .ok ⟨numRow, numCol, elements⟩
  else .error (.mismatchedLength (numRow * numCol) elements.size)

def set (m : FlatMatrix α) (row column : Nat) (value : α) : Except MatrixError (FlatMatrix α) :=
  if row < m.numRow ∧ column < m.numCol then
    .ok { m with elements := m.elements.setIfInBounds (row * m.numCol + column) value }
  else .error (.indexOutOfBounds row column m.numRow m.numCol)

/-- Replaces all coefficients by as many others. -/
def refill (m : FlatMatrix α) (elements : Array α) : Except MatrixError (FlatMatrix α) :=
  if elements.size = m.elements.size then .ok { m with elements }
  else .error (.mismatchedLength m.elements.size elements.size)

variable [Scalar α]

/-- The coefficients as a block of the matrix's shape. -/
def toBlock (m : FlatMatrix α) : Block m.numRow m.numCol α := Block.ofArray _ _ m.elements

def get (m : FlatMatrix α) (row column : Nat) : Except MatrixError α :=
  if row < m.numRow ∧ column < m.numCol then
    .ok (m.elements.getD (row * m.numCol + column) 0)
  else .error (.indexOutOfBounds row column m.numRow m.numCol)

/-- Zeros, or ones on the diagonal and zeros elsewhere. -/
def filled (numRow numCol : Nat) (diagonal : Bool) : FlatMatrix α :=
  ofBlock (if diagonal then Block.diagonal numRow numCol else Block.zero numRow numCol)

def transpose (m : FlatMatrix α) : FlatMatrix α := ofBlock m.toBlock.transpose

/-- Divides every column by its Euclidean norm. -/
def unitColumns [Elementary α] (m : FlatMatrix α) : FlatMatrix α :=
  ofBlock (m.toBlock.divideColumns m.toBlock.columnNorm)

end FlatMatrix

end Georeferencing
