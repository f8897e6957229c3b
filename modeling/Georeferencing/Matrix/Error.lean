import Georeferencing.Axis

/-! # Failures of matrix operations

One constructor per cause; the wording is in the functions named `message`.
-/

namespace Georeferencing

/-- The envelope or corner whose dimension does not fit. -/
inductive EnvelopeRole where
  | upperCorner
  | source
  | destination
deriving DecidableEq, Repr

def EnvelopeRole.name : EnvelopeRole → String
  | upperCorner => "upper"
  | source => "src_envelope"
  | destination => "dst_envelope"

/-- Arguments that an operation can not work with. -/
inductive ArgumentFault where
  /-- A pass-through matrix needs at least one row and one column. -/
  | emptySubMatrix (numRow numCol : Nat)
  /-- A transform needs at least one row and one column. -/
  | emptyTransform
  /-- A matrix supplied from outside gives its own reason. -/
  | other (reason : String)
deriving DecidableEq, Repr

def ArgumentFault.message : ArgumentFault → String
  | emptySubMatrix numRow numCol =>
    "pass-through sub-matrix must have at least one row and one column, got " ++
      toString numRow ++ "×" ++ toString numCol
  | emptyTransform => "a transform matrix needs at least one row and one column"
  | other reason => reason

inductive MatrixError where
  | indexOutOfBounds (row column numRow numCol : Nat)
  | indexOutOfRange (index bound : Nat)
  | mismatchedLength (expected actual : Nat)
  | mismatchedSize (expected numRow numCol : Nat)
  | nonInvertible
  | axisNotFound (target : AxisDirection)
  | colinearAxes (source target : AxisDirection)
  | mismatchedDimension (role : EnvelopeRole) (expected actual : Nat)
  | illegalArgument (fault : ArgumentFault)
deriving DecidableEq, Repr

def MatrixError.message : MatrixError → String
  | indexOutOfBounds row column numRow numCol =>
    s!"Index ({row}, {column}) is out of bounds for a {numRow}×{numCol} matrix"
  | indexOutOfRange index bound => s!"Index {index} is out of range [0, {bound})"
  | mismatchedLength expected actual => s!"Expected an array of length {expected}, got {actual}"
  | mismatchedSize expected numRow numCol =>
    s!"Mismatched matrix size: expected {expected} rows, got a {numRow}×{numCol} matrix"
  | nonInvertible => "Matrix is not invertible"
  | axisNotFound target =>
    "Can not map an axis from the source to the " ++ target.identifier ++ " direction"
  | colinearAxes source target =>
    "Axis directions " ++ source.identifier ++ " and " ++ target.identifier ++ " are colinear"
  | mismatchedDimension role expected actual =>
    "Mismatched dimension for " ++ role.name ++ s!": expected {expected}, got {actual}"
  | illegalArgument fault => "Illegal argument: " ++ fault.message

end Georeferencing
