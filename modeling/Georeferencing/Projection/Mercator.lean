import Georeferencing.Matrix.Square
import Georeferencing.Projection.Ellipsoid
import Georeferencing.Projection.Latitude
import Georeferencing.Transform.Batch

/-! # Mercator projection

The projection of an ellipsoid with semi-major axis one, from longitude and latitude in radians.
The longitude is the abscissa; the latitude alone determines the ordinate. The poles are tested
for, since no double is exactly a quarter turn.

Offsets and counts are natural numbers. Where they are words of 64 bits, the end of the farther
region, `max srcOff dstOff + 2 * count`, stays below `2 ^ 64`.
-/

namespace Georeferencing

/-- Which formulas a projection uses. -/
inductive MercatorFormulas where
  | ellipsoidal
  /-- Spherical formulas on a sphere. -/
  | spherical
  /-- Spherical formulas whatever the ellipsoid. -/
  | pseudo
deriving DecidableEq, Repr

structure Mercator (α : Type) where
  eccentricity : α
  eccentricitySquared : α
  formulas : MercatorFormulas
deriving DecidableEq, Repr

namespace Mercator

variable {α : Type}

def isSpherical (m : Mercator α) : Bool := m.formulas != .ellipsoidal

def descriptor (m : Mercator α) : String :=
  match m.formulas with
  | .pseudo => "Popular Visualisation Pseudo Mercator"
  | _ => "Mercator (variant A)"

variable [Scalar α]

/-- Numerically equal parameters and the same formulas. -/
def equal (a b : Mercator α) : Bool :=
  a.eccentricity == b.eccentricity && a.eccentricitySquared == b.eccentricitySquared &&
    a.formulas == b.formulas

variable [Elementary α]

open Elementary

def ofFormulas (eccentricitySquared : α) (formulas : MercatorFormulas) : Mercator α :=
  ⟨sqrt eccentricitySquared, eccentricitySquared, formulas⟩

/-- Ellipsoidal formulas, on a sphere too. -/
def ellipsoidal (e : Ellipsoid α) : Mercator α := ofFormulas e.eccentricitySquared .ellipsoidal

/-- Spherical formulas, for a sphere only. -/
def spherical (e : Ellipsoid α) : Except (TransformError α) (Mercator α) :=
  if e.isSphere then .ok (ofFormulas 0 .spherical)
  else .error (.invalidParameter (.notSphere e.flattening))

def pseudo : Mercator α := ofFormulas 0 .pseudo

/-- Spherical formulas if the eccentricity is zero, ellipsoidal ones otherwise. -/
def ofEllipsoid (e : Ellipsoid α) : Mercator α :=
  if e.eccentricitySquared == 0 then ofFormulas 0 .spherical else ellipsoidal e

/-- The ordinate of a latitude: zero keeps its sign, the poles are infinitely far, and beyond them
there is no number. -/
def latitudeToOrdinate (m : Mercator α) (phi : α) : α :=
  let sinPhi := sin phi
  if sinPhi == 0 then phi
  else if Scalar.abs phi < halfPi then
    if m.isSpherical then log (tan (quarterPi + 0.5 * phi))
    else log (Latitude.isometricRatio phi (m.eccentricity * sinPhi) m.eccentricity)
  else if Scalar.abs phi ≤ halfPi + Latitude.poleTolerance then
    if phi < 0 then -Scalar.infinity else Scalar.infinity
  else Scalar.nan

/-- The latitude of an ordinate. -/
def ordinateToLatitude (m : Mercator α) (y : α) : Except (TransformError α) α :=
  if m.isSpherical then .ok (Latitude.sphericalOfRatio (exp (-y)))
  else Latitude.ofRatio (exp (-y)) m.eccentricity

/-- The matrix of partial derivatives at a latitude. -/
def derivative (m : Mercator α) (phi : α) : Square 2 α :=
  let cosPhi := cos phi
  if m.isSpherical then .of2 1 0 0 (1 / cosPhi)
  else
    let sinPhi := sin phi
    let eSinPhi := m.eccentricity * sinPhi
    let t := (1 - sinPhi) / cosPhi
    .of2 1 0 0
      (0.5 * (t + 1 / t) - m.eccentricitySquared * cosPhi / (1 - eSinPhi * eSinPhi))

/-- Projects one longitude and latitude. -/
def project (m : Mercator α) (lambda phi : α) : α × α := (lambda, m.latitudeToOrdinate phi)

/-- The longitude and latitude of a projected point. -/
def unproject (m : Mercator α) (x y : α) : Except (TransformError α) (α × α) := do
  return (x, ← m.ordinateToLatitude y)

def projectPoint (m : Mercator α) : List α → Except (TransformError α) (List α)
  | [lambda, phi] => .ok [lambda, m.latitudeToOrdinate phi]
  | point => .error (.mismatchedDimension 2 point.length)

def unprojectPoint (m : Mercator α) : List α → Except (TransformError α) (List α)
  | [x, y] => do return [x, ← m.ordinateToLatitude y]
  | point => .error (.mismatchedDimension 2 point.length)

def applyBatch (m : Mercator α) (src dst : List α) (count : Nat) : Batch α :=
  .pointwise 2 2 m.projectPoint src dst count

/-- The way back. Points before one whose latitude does not settle have been written. -/
def unprojectBatch (m : Mercator α) (src dst : List α) (count : Nat) : Batch α :=
  .pointwise 2 2 m.unprojectPoint src dst count

/-- Replaces the latitude at one place of a buffer by its ordinate. -/
def projectAt (m : Mercator α) (pts : List α) (place : Nat) : List α :=
  pts.set place (m.latitudeToOrdinate (pts.getD place 0))

/-- Reads the point at `src` and writes its projection at `dst`. -/
def movePoint (m : Mercator α) (pts : List α) (src dst : Nat) : List α :=
  let lambda := pts.getD src 0
  let phi := pts.getD (src + 1) 0
  (pts.set dst lambda).set (dst + 1) (m.latitudeToOrdinate phi)

/-- Transforms points within one buffer without copying it. If the points stay where they are only
the latitudes are replaced; otherwise the points are moved last to first when they move ahead and
first to last when they move back, so that none is overwritten before it is read. -/
def applyWithin (m : Mercator α) (pts : List α) (srcOff dstOff count : Nat) : Batch α :=
  match capacityFault? (max srcOff dstOff + 2 * count) pts.length with
  | some fault => ⟨pts, some fault⟩
  | none =>
    let indices := List.range count
    let move (pts : List α) (k : Nat) := m.movePoint pts (srcOff + 2 * k) (dstOff + 2 * k)
    let written :=
      if srcOff = dstOff then
        indices.foldl (fun pts k => m.projectAt pts (srcOff + 1 + 2 * k)) pts
      else if srcOff < dstOff then indices.reverse.foldl move pts
      else indices.foldl move pts
    ⟨written, none⟩

end Mercator

end Georeferencing
