/-! # Axis directions

The directions in which the ordinates of a coordinate system may increase. The sixteen compass
directions form a circle; most of the others come in pairs that point opposite ways.
-/

namespace Georeferencing

/-- Direction of positive increments along an axis, the compass ones clockwise from north. -/
inductive AxisDirection where
  | north | northNorthEast | northEast | eastNorthEast
  | east | eastSouthEast | southEast | southSouthEast
  | south | southSouthWest | southWest | westSouthWest
  | west | westNorthWest | northWest | northNorthWest
  | up | down
  | geocentricX | geocentricY | geocentricZ
  | future | past
  | columnPositive | columnNegative | rowPositive | rowNegative
  | displayRight | displayLeft | displayUp | displayDown
  | other
deriving DecidableEq, Repr

namespace AxisDirection

/-- All directions, the sixteen compass ones first. -/
def all : List AxisDirection :=
  [north, northNorthEast, northEast, eastNorthEast, east, eastSouthEast, southEast, southSouthEast,
    south, southSouthWest, southWest, westSouthWest, west, westNorthWest, northWest, northNorthWest,
    up, down, geocentricX, geocentricY, geocentricZ, future, past,
    columnPositive, columnNegative, rowPositive, rowNegative,
    displayRight, displayLeft, displayUp, displayDown, other]

def compass : List AxisDirection := all.take 16

/-- The place on the compass, in sixteenths of a turn clockwise from north. -/
def compassIndex? (d : AxisDirection) : Option Nat := compass.findIdx? (· == d)

def isCompass (d : AxisDirection) : Bool := d.compassIndex?.isSome

/-- The pairs of opposite directions off the compass, the positive member first. -/
def pairs : List (AxisDirection × AxisDirection) :=
  [(up, down), (future, past), (columnPositive, columnNegative), (rowPositive, rowNegative),
    (displayRight, displayLeft), (displayUp, displayDown)]

/-- The direction pointing the other way: half a turn on the compass, the partner in a pair, and
the direction itself where there is no such thing. -/
def opposite (d : AxisDirection) : AxisDirection :=
  match d.compassIndex? with
  | some i => compass.getD ((i + 8) % 16) d
  | none =>
    match pairs.find? (·.1 == d), pairs.find? (·.2 == d) with
    | some (_, negative), _ => negative
    | none, some (positive, _) => positive
    | none, none => d

/-- The positive one of a direction and its opposite. Two directions are colinear when they have
the same absolute direction. -/
def absolute (d : AxisDirection) : AxisDirection :=
  match d.compassIndex? with
  | some i => compass.getD (i % 8) d
  | none =>
    match pairs.find? (·.2 == d) with
    | some (positive, _) => positive
    | none => d

def isColinear (a b : AxisDirection) : Bool := a.absolute == b.absolute

/-- The name in the ISO 19111 code list. -/
def identifier : AxisDirection → String
  | north => "north"
  | northNorthEast => "northNorthEast"
  | northEast => "northEast"
  | eastNorthEast => "eastNorthEast"
  | east => "east"
  | eastSouthEast => "eastSouthEast"
  | southEast => "southEast"
  | southSouthEast => "southSouthEast"
  | south => "south"
  | southSouthWest => "southSouthWest"
  | southWest => "southWest"
  | westSouthWest => "westSouthWest"
  | west => "west"
  | westNorthWest => "westNorthWest"
  | northWest => "northWest"
  | northNorthWest => "northNorthWest"
  | up => "up"
  | down => "down"
  | geocentricX => "geocentricX"
  | geocentricY => "geocentricY"
  | geocentricZ => "geocentricZ"
  | future => "future"
  | past => "past"
  | columnPositive => "columnPositive"
  | columnNegative => "columnNegative"
  | rowPositive => "rowPositive"
  | rowNegative => "rowNegative"
  | displayRight => "displayRight"
  | displayLeft => "displayLeft"
  | displayUp => "displayUp"
  | displayDown => "displayDown"
  | other => "other"

/-- The direction of a given name. -/
def ofIdentifier? (name : String) : Option AxisDirection := all.find? (·.identifier == name)

theorem opposite_opposite (d : AxisDirection) : d.opposite.opposite = d := by
  cases d <;> decide

end AxisDirection

end Georeferencing
