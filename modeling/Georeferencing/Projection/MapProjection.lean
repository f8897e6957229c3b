import Georeferencing.Transform.Concatenation

/-! # Map projections

A map projection from degrees to metres is a chain of three steps: a matrix that removes the
central meridian and converts to radians, a projection of the unit ellipsoid, and a matrix that
applies the scale and the false origin. The matrices merge with those of neighbouring transforms.
-/

namespace Georeferencing

/-- The members of the Mercator family. -/
inductive MercatorVariant where
  /-- Variant A: the scale factor is given at the equator. -/
  | equatorScale
  /-- Variant B: the scale factor follows from a standard parallel. -/
  | parallelScale
  /-- Pseudo Mercator: spherical formulas on ellipsoidal coordinates. -/
  | pseudo
deriving DecidableEq, Repr

/-- Angles in degrees, lengths in metres. The scale factor is ignored by variant B, the standard
parallel by the other variants. -/
structure ProjectionParameters (α : Type) where
  ellipsoid : Ellipsoid α
  variant : MercatorVariant
  centralMeridian : α
  scaleFactor : α
  standardParallel : α
  falseEasting : α
  falseNorthing : α

/-- A map projection: the three steps, and the transform made of them. -/
structure MapProjection (α : Type) where
  kernel : Mercator α
  normalize : Projective α
  denormalize : Projective α
  transform : Transform α

variable {α : Type} [Scalar α] [Elementary α]

namespace ProjectionParameters

open Elementary

/-- Variant A on WGS 84 without a false origin. -/
def standard : ProjectionParameters α where
  ellipsoid := .wgs84
  variant := .equatorScale
  centralMeridian := 0
  scaleFactor := 1
  standardParallel := 0
  falseEasting := 0
  falseNorthing := 0

/-- The projection of web maps. -/
def web : ProjectionParameters α := { standard with variant := .pseudo }

/-- The scale factor at the equator before it is checked: for variant B the radius of the standard
parallel, which must be strictly between the poles. -/
def givenFactor (p : ProjectionParameters α) : Except (TransformError α) α :=
  match p.variant with
  | .parallelScale =>
    if Scalar.abs p.standardParallel < 90.0 then
      .ok (Latitude.parallelRadius (toRadians p.standardParallel) p.ellipsoid.eccentricitySquared)
    else .error (.invalidParameter (.standardParallel p.standardParallel))
  | .equatorScale | .pseudo => .ok p.scaleFactor

/-- The scale factor at the equator, which must be positive and finite. -/
def equatorFactor (p : ProjectionParameters α) : Except (TransformError α) α := do
  let factor ← p.givenFactor
  if 0 < factor ∧ Scalar.isFinite factor then .ok factor
  else .error (.invalidParameter (.scaleFactor factor))

/-- The semi-major axis must be positive and finite, the flattening from zero to below one. -/
def checkEllipsoid (p : ProjectionParameters α) : Except (TransformError α) Unit :=
  let a := p.ellipsoid.semiMajor
  let f := p.ellipsoid.flattening
  if 0 < a ∧ Scalar.isFinite a then
    if 0 ≤ f ∧ f < 1 then .ok () else .error (.invalidParameter (.flattening f))
  else .error (.invalidParameter (.semiMajorAxis a))

def kernel (p : ProjectionParameters α) : Mercator α :=
  match p.variant with
  | .pseudo => .pseudo
  | .equatorScale | .parallelScale => .ofEllipsoid p.ellipsoid

/-- From degrees to radians east of the central meridian. -/
def normalize (p : ProjectionParameters α) : Projective α :=
  ⟨.small 3 isSmall_three
    (.of3 degree 0 (-p.centralMeridian * degree) 0 degree 0 0 0 1)⟩

/-- From the unit ellipsoid to metres from the false origin. -/
def denormalize (p : ProjectionParameters α) (factor : α) : Projective α :=
  let scale := p.ellipsoid.semiMajor * factor
  ⟨.small 3 isSmall_three (.of3 scale 0 p.falseEasting 0 scale p.falseNorthing 0 0 1)⟩

end ProjectionParameters

namespace MapProjection

/-- The Mercator projection with the given parameters. The ellipsoid is checked before the scale
factor. -/
def mercator (p : ProjectionParameters α) : Except (TransformError α) (MapProjection α) := do
  p.checkEllipsoid
  let factor ← p.equatorFactor
  let transform ← Transform.concatenate
    [.linear p.normalize, .mercator p.kernel, .linear (p.denormalize factor)]
  return ⟨p.kernel, p.normalize, p.denormalize factor, transform⟩

/-- The three steps in order. -/
def steps (p : MapProjection α) : List (Transform α) :=
  [.linear p.normalize, .mercator p.kernel, .linear p.denormalize]

/-- Longitude and latitude in degrees to easting and northing in metres. -/
def forward (p : MapProjection α) (lon lat : α) : Except (TransformError α) (α × α) := do
  let pts ← (p.transform.applyWithin [lon, lat] 0 0 1).result
  return (pts.getD 0 0, pts.getD 1 0)

/-- One point through the inverse of a matrix step. -/
def undo (t : Projective α) (x y : α) : Except (TransformError α) (α × α) := do
  let back ← TransformError.ofMatrix t.inverse
  let point ← (Transform.linear back).applyPoint [x, y]
  return (point.getD 0 0, point.getD 1 0)

/-- Easting and northing in metres to longitude and latitude in degrees. -/
def backward (p : MapProjection α) (easting northing : α) :
    Except (TransformError α) (α × α) := do
  let (x, y) ← undo p.denormalize easting northing
  let (lambda, phi) ← p.kernel.unproject x y
  undo p.normalize lambda phi

/-- Projects a buffer of longitudes and latitudes in place. -/
def forwardAll (p : MapProjection α) (coords : List α) : Batch α :=
  if coords.length % 2 = 0 then p.transform.applyWithin coords 0 0 (coords.length / 2)
  else ⟨coords, some (.mismatchedDimension 2 coords.length)⟩

/-- The projection preceded by a matrix, as from pixels to degrees. -/
def after (p : MapProjection α) (t : Projective α) : Except (TransformError α) (Transform α) :=
  Transform.concatenate (.linear t :: p.steps)

/-- The projection followed by a matrix, as from metres to pixels. -/
def andThen (p : MapProjection α) (t : Projective α) : Except (TransformError α) (Transform α) :=
  Transform.concatenate (p.steps ++ [.linear t])

end MapProjection

end Georeferencing
