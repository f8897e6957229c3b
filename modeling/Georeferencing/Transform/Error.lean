import Georeferencing.Matrix.Comparison

/-! # Failures of transforms and projections

One constructor per cause, carrying the offending number; `message` takes the writer of numbers.
-/

namespace Georeferencing

/-- Parameters that no transform can be made from. -/
inductive ParameterFault (α : Type) where
  | emptyConcatenation
  | semiMajorAxis (value : α)
  | flattening (value : α)
  | standardParallel (value : α)
  | scaleFactor (value : α)
  /-- Spherical formulas were asked for on an ellipsoid that is not a sphere. -/
  | notSphere (flattening : α)
  /-- A transform supplied from outside gives its own reason. -/
  | other (reason : String)
deriving DecidableEq, Repr

namespace ParameterFault

variable {α : Type} (text : α → String)

def message : ParameterFault α → String
  | emptyConcatenation => "can not concatenate an empty list of transforms"
  | semiMajorAxis value => "semi-major axis must be strictly positive, got " ++ text value
  | flattening value => "flattening must be in the [0, 1) range, got " ++ text value
  | standardParallel value => "standard parallel " ++ text value ++ " is not in the (-90, 90) range"
  | scaleFactor value => "scale factor must be strictly positive, got " ++ text value
  | notSphere value =>
    "spherical Mercator needs a sphere, got an ellipsoid with flattening " ++ text value
  | other reason => reason

end ParameterFault

inductive TransformError (α : Type) where
  | invalidParameter (fault : ParameterFault α)
  | noConvergence
  | mismatchedDimension (expected actual : Nat)
  | bufferTooSmall (required actual : Nat)
  | matrix (error : MatrixError)
deriving DecidableEq, Repr

namespace TransformError

variable {α : Type} (text : α → String)

def message : TransformError α → String
  | invalidParameter fault => "Invalid parameter: " ++ fault.message text
  | noConvergence => "No convergence while computing the latitude"
  | mismatchedDimension expected actual =>
    s!"Mismatched dimension: expected {expected}, got {actual}"
  | bufferTooSmall required actual =>
    s!"Coordinate buffer too small: need {required} values, got {actual}"
  | matrix error => "Matrix error in projection: " ++ error.message

/-- The same outcome of a matrix operation, as part of a transform. -/
def ofMatrix {β : Type} : Except MatrixError β → Except (TransformError α) β
  | .ok b => .ok b
  | .error e => .error (.matrix e)

end TransformError

/-- Any failure of the library. -/
inductive GeoreferencingError (α : Type) where
  | matrix (error : MatrixError)
  | projection (error : TransformError α)
  | comparison (error : ComparisonError)
deriving DecidableEq, Repr

def GeoreferencingError.message {α : Type} (text : α → String) : GeoreferencingError α → String
  | matrix error => "Matrix error: " ++ error.message
  | projection error => "Projection error: " ++ error.message text
  | comparison error => "Comparison error: " ++ error.message

end Georeferencing
