import Georeferencing.Matrix.Product
import Georeferencing.Transform.Batch

/-! # Projective transforms

A matrix of `m + 1` rows and `n + 1` columns maps points with `n` ordinates to points with `m`: the
point is extended by a one, multiplied by the matrix, and divided by the last ordinate of the
product. An affine matrix needs no division.
-/

namespace Georeferencing

/-- A transform given by a matrix, which has at least one row and one column. -/
structure Projective (α : Type) where
  matrix : StoredMatrix α
deriving DecidableEq

namespace Projective

variable {α : Type}

def source (t : Projective α) : Nat := t.matrix.numCol - 1

def target (t : Projective α) : Nat := t.matrix.numRow - 1

/-- The transform of a matrix, which must have at least one row and one column. -/
def ofMatrix (m : StoredMatrix α) : Except MatrixError (Projective α) :=
  if m.numRow = 0 ∨ m.numCol = 0 then .error (.illegalArgument .emptyTransform) else .ok ⟨m⟩

def same [BitPattern α] (a b : Projective α) : Bool := a.matrix == b.matrix

variable [Scalar α]

def identity (dimension : Nat) : Projective α := ⟨.identity (dimension + 1)⟩

def isAffine (t : Projective α) : Bool := t.matrix.isAffine

def isIdentity (t : Projective α) : Bool := t.matrix.isIdentity

/-- The product of a row of the matrix with a point extended by a one. -/
def rowProduct (t : Projective α) (row : Nat) (point : List α) : α :=
  let coefficients := (t.matrix.elements.toList.drop (row * t.matrix.numCol)).take t.matrix.numCol
  Scalar.sum (point.zipWith (· * ·) coefficients) + coefficients.getD t.source 0

/-- The image of one point. -/
def image (t : Projective α) (point : List α) : List α :=
  let numerators := (List.range t.target).map fun row => t.rowProduct row point
  if t.isAffine then numerators
  else
    let w := t.rowProduct t.target point
    numerators.map (· / w)

def applyBatch (t : Projective α) (src dst : List α) (count : Nat) : Batch α :=
  .pointwise t.source t.target (fun point => .ok (t.image point)) src dst count

/-- Applies `first`, then `second`. -/
def andThen (first second : Projective α) : Except MatrixError (Projective α) := do
  return ⟨← second.matrix.mul (.stored first.matrix)⟩

def inverse (t : Projective α) : Except MatrixError (Projective α) := do
  return ⟨← t.matrix.inverse⟩

/-- The coefficients of an affine transform of the plane, in the order in which raster headers
list them: `x = c + a * column + b * row`, `y = f + d * column + e * row`. -/
structure GeoTransform (α : Type) where
  c : α
  a : α
  b : α
  f : α
  d : α
  e : α
deriving DecidableEq, Repr

def ofGeoTransform (g : GeoTransform α) : Projective α :=
  ⟨.small 3 isSmall_three (.of3 g.a g.b g.c g.d g.e g.f 0 0 1)⟩

/-- The coefficients of an affine transform held as a matrix of size three. -/
def toGeoTransform? (t : Projective α) : Option (GeoTransform α) :=
  match t.matrix with
  | .small 3 _ m =>
    if t.isAffine then some (m.withEntries3 fun a b c d e f _ _ _ => ⟨c, a, b, f, d, e⟩) else none
  | _ => none

end Projective

end Georeferencing
