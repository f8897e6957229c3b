import Georeferencing.Matrix.Stored

/-! # Held matrices

A matrix may be held by any type, also by one from outside. What copies, products and comparisons
see of it is a shape, a list of coefficients and a reader by row and column. For the types of this
library the list and the reader agree; a matrix from outside may list fewer coefficients than its
shape has.
-/

namespace Georeferencing

/-- A rectangle of coefficients of any shape that is never stored otherwise. -/
structure Table (α : Type) where
  numRow : Nat
  numCol : Nat
  block : Block numRow numCol α
deriving DecidableEq

/-- A matrix supplied from outside; `name` tells its type from others. -/
structure ForeignMatrix (α : Type) where
  name : String
  numRow : Nat
  numCol : Nat
  elements : Array α
  get : Nat → Nat → Except MatrixError α

/-- A matrix with the type that holds it. -/
inductive HeldMatrix (α : Type) where
  | stored (m : StoredMatrix α)
  | square (n : Nat) (m : Square n α)
  | flat (m : FlatMatrix α)
  | table (m : Table α)
  | foreign (m : ForeignMatrix α)

namespace HeldMatrix

variable {α : Type}

def numRow : HeldMatrix α → Nat
  | stored m => m.numRow
  | square n _ => n
  | flat m => m.numRow
  | table m => m.numRow
  | foreign m => m.numRow

def numCol : HeldMatrix α → Nat
  | stored m => m.numCol
  | square n _ => n
  | flat m => m.numCol
  | table m => m.numCol
  | foreign m => m.numCol

/-- The coefficients that the matrix lists, in row-major order. -/
def elements : HeldMatrix α → Array α
  | stored m => m.elements
  | square _ m => m.elements.toArray
  | flat m => m.elements
  | table m => m.block.elements.toArray
  | foreign m => m.elements

/-- Whether two matrices are held by the same type. -/
def sameHolder : HeldMatrix α → HeldMatrix α → Bool
  | stored _, stored _ => true
  | square n _, square m _ => n == m
  | flat _, flat _ => true
  | table _, table _ => true
  | foreign a, foreign b => a.name == b.name
  | _, _ => false

variable [Scalar α]

def get : HeldMatrix α → Nat → Nat → Except MatrixError α
  | stored m => m.get
  | square _ m => m.get
  | flat m => m.get
  | table m => m.block.get
  | foreign m => m.get

/-- The list of coefficients fills the shape, and the reader agrees with it. -/
def Consistent (m : HeldMatrix α) : Prop :=
  m.elements.size = m.numRow * m.numCol ∧
    ∀ row column, m.get row column =
      if row < m.numRow ∧ column < m.numCol then .ok (m.elements.getD (row * m.numCol + column) 0)
      else .error (.indexOutOfBounds row column m.numRow m.numCol)

/-- The coefficient that the reader gives, not a number if it fails. -/
def read (m : HeldMatrix α) (row column : Nat) : α :=
  match m.get row column with
  | .ok e => e
  | .error _ => Scalar.nan

/-- A copy in the storage that the shape asks for. If the list of coefficients does not fill the
shape, they are read one by one. -/
def copy (m : HeldMatrix α) : StoredMatrix α :=
  match Block.ofElements? m.numRow m.numCol m.elements with
  | some b => .ofBlock b
  | none => .ofFn m.numRow m.numCol fun i j => m.read i j

/-- The matrix itself if it can be stored as it is, otherwise a copy. -/
def toStored (m : HeldMatrix α) : StoredMatrix α :=
  match m with
  | stored m => m
  | square n s => if h : IsSmall n then .small n h s else m.copy
  | flat m => .flat m
  | table _ | foreign _ => m.copy

/-- The listed coefficients under the shape of the matrix. -/
def toFlat (m : HeldMatrix α) : FlatMatrix α := ⟨m.numRow, m.numCol, m.elements⟩

def isAffine (m : HeldMatrix α) : Bool := RowMajor.isAffine m.numRow m.numCol m.elements

def isIdentity (m : HeldMatrix α) : Bool := RowMajor.isIdentity m.numRow m.numCol m.elements

/-- A square matrix that differs nowhere from the identity by more than `tolerance`. -/
def isIdentityWithin (tolerance : α) (m : HeldMatrix α) : Bool :=
  RowMajor.isIdentityWithin tolerance m.numRow m.numCol m.elements

end HeldMatrix

/-- The coefficients as a table, zero if they do not fill the shape. -/
def StoredMatrix.toTable {α : Type} [Scalar α] (m : StoredMatrix α) : Table α :=
  ⟨m.numRow, m.numCol, (Block.ofElements? m.numRow m.numCol m.elements).getD (.zero _ _)⟩

end Georeferencing
