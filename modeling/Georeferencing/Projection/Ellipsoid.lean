import Georeferencing.Scalar

/-! # Ellipsoids of revolution -/

namespace Georeferencing

/-- An ellipsoid by its two axes, with the two numbers that projections derive from them. -/
structure Ellipsoid (α : Type) where
  semiMajor : α
  flattening : α
  semiMinor : α
  eccentricitySquared : α
deriving DecidableEq, Repr

namespace Ellipsoid

variable {α : Type} [Scalar α]

def ofFlattening (a f : α) : Ellipsoid α where
  semiMajor := a
  flattening := f
  semiMinor := a * (1 - f)
  eccentricitySquared := 2.0 * f - f * f

def ofAxes (a b : α) : Ellipsoid α := ofFlattening a ((a - b) / a)

def sphere (radius : α) : Ellipsoid α := ofFlattening radius 0

def eccentricity [Elementary α] (e : Ellipsoid α) : α := Elementary.sqrt e.eccentricitySquared

def isSphere (e : Ellipsoid α) : Bool := e.flattening == 0

def wgs84 : Ellipsoid α := ofFlattening 6378137.0 (1 / 298.257223563)

def grs80 : Ellipsoid α := ofFlattening 6378137.0 (1 / 298.257222101)

/-- The sphere with the semi-major axis of WGS 84. -/
def wgs84Sphere : Ellipsoid α := sphere 6378137.0

end Ellipsoid

end Georeferencing
