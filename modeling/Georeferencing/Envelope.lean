import Georeferencing.Matrix.Error
import Georeferencing.Scalar

/-! # Envelopes

Axis-aligned extents: one pair of bounds per dimension. The bounds need not be in order.
-/

namespace Georeferencing

/-- The extent along one dimension. -/
structure Extent (α : Type) where
  minimum : α
  maximum : α
deriving DecidableEq, Repr

/-- An extent per dimension. -/
structure Envelope (α : Type) where
  extents : List (Extent α)
deriving DecidableEq, Repr

variable {α : Type}

def Extent.span [Sub α] (e : Extent α) : α := e.maximum - e.minimum

namespace Envelope

def dimension (e : Envelope α) : Nat := e.extents.length

/-- The envelope between two corners, which must have the same number of ordinates. -/
def ofCorners (lower upper : List α) : Except MatrixError (Envelope α) :=
  if lower.length = upper.length then .ok ⟨lower.zipWith Extent.mk upper⟩
  else .error (.mismatchedDimension .upperCorner lower.length upper.length)

/-- Fails unless an envelope has the expected dimension. -/
def checkDimension (role : EnvelopeRole) (expected : Nat) (e : Envelope α) :
    Except MatrixError Unit :=
  if e.dimension = expected then .ok ()
  else .error (.mismatchedDimension role expected e.dimension)

/-- Equal dimensions and numerically equal bounds. -/
def sameBounds [BEq α] (a b : Envelope α) : Bool :=
  a.dimension == b.dimension &&
    (a.extents.zip b.extents).all fun (p, q) => p.minimum == q.minimum && p.maximum == q.maximum

end Envelope

end Georeferencing
