import Georeferencing.Transform.Error

/-! # Isometric latitude

On an ellipsoid of eccentricity `e` the Mercator ordinate of a latitude is the logarithm of
`isometricRatio`. The way back has no closed formula: `ofRatio` iterates a step of which
the latitude is the fixed point.
-/

namespace Georeferencing.Latitude

variable {α : Type} [Scalar α] [Elementary α]

open Elementary

/-- Latitudes beyond a pole by no more than this are taken for the pole. -/
def poleTolerance : α := 1e-10

/-- Two estimates that differ by no more than this are taken for the same latitude. -/
def iterationTolerance : α := 1e-10

def maximumIterations : Nat := 15

/-- `((1 - e sin φ) / (1 + e sin φ)) ^ (e / 2)`, how far the ellipsoid departs from a sphere. -/
def departure (eSinPhi e : α) : α := pow ((1 - eSinPhi) / (1 + eSinPhi)) (0.5 * e)

/-- Exponential of the isometric latitude of `phi`; `eSinPhi` is `e sin φ`. -/
def isometricRatio (phi eSinPhi e : α) : α :=
  tan (quarterPi + 0.5 * phi) * departure eSinPhi e

/-- The latitude on a sphere whose isometric latitude has the exponential `1 / ts`. -/
def sphericalOfRatio (ts : α) : α := halfPi - 2.0 * atan ts

/-- One improvement of an estimate of the latitude. -/
def refine (ts e phi : α) : α := sphericalOfRatio (ts * departure (e * sin phi) e)

/-- Improves an estimate until it settles, `count` times at most. A step that is not a number
counts as settled. -/
def settle (ts e : α) : Nat → α → Except (TransformError α) α
  | 0, _ => .error .noConvergence
  | count + 1, phi =>
    let next := refine ts e phi
    if iterationTolerance < Scalar.abs (next - phi) then settle ts e count next else .ok next

/-- The latitude whose isometric latitude has the exponential `1 / ts`. -/
def ofRatio (ts e : α) : Except (TransformError α) α :=
  settle ts e maximumIterations (sphericalOfRatio ts)

/-- Radius of the parallel at latitude `phi` on an ellipsoid of semi-major axis one. -/
def parallelRadius (phi eccentricitySquared : α) : α :=
  let sinPhi := sin phi
  cos phi / sqrt (1 - eccentricitySquared * sinPhi * sinPhi)

end Georeferencing.Latitude
