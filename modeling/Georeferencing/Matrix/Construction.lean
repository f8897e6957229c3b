import Georeferencing.Envelope
import Georeferencing.Matrix.Held

/-! # Matrices of coordinate operations

A matrix with one row more than there are target ordinates and one column more than there are
source ordinates, the last column holding offsets. Each construction is given by its
coefficients as a function of row and column.

Numbers of ordinates are natural numbers. Where they are words of 64 bits, the numbers of rows and
of columns, which are sums of them and one more, and the product of both stay below `2 ^ 64`.
-/

namespace Georeferencing.StoredMatrix

variable {α : Type} [Scalar α]

/-- What an ordinate is made of: one source ordinate, a factor and a term. -/
structure OrdinateMap (α : Type) where
  source : Nat
  scale : α
  offset : α

/-- The matrix that makes each target ordinate as listed. -/
def ofOrdinates (sourceDimension : Nat) (ordinates : List (OrdinateMap α)) : StoredMatrix α :=
  ofFn (ordinates.length + 1) (sourceDimension + 1) fun i j =>
    match ordinates[i.val]? with
    | some o => if j.val = sourceDimension then o.offset
      else if j.val = o.source then o.scale else 0
    | none => if j.val = sourceDimension then 1 else 0

/-- The linear map of one extent onto another. -/
def betweenExtents (index : Nat) (source target : Extent α) : OrdinateMap α :=
  let scale := target.span / source.span
  ⟨index, scale, target.minimum - source.minimum * scale⟩

/-- Maps an envelope onto another dimension by dimension. Source dimensions without a counterpart
are ignored, target ones are set to zero. -/
def betweenEnvelopes (source target : Envelope α) : StoredMatrix α :=
  let n := source.dimension
  let m := target.dimension
  ofFn (m + 1) (n + 1) fun i j =>
    if i.val = m then if j.val = n then 1 else 0
    else match source.extents[i.val]?, target.extents[i.val]? with
      | some s, some t =>
        let o := betweenExtents i.val s t
        if j.val = n then o.offset else if j.val = i.val then o.scale else 0
      | _, _ => 0

/-- The places of the source axes that are colinear with `target`. -/
def colinearAxes (source : List AxisDirection) (target : AxisDirection) :
    List (AxisDirection × Nat) :=
  source.zipIdx.filter fun (axis, _) => target.isColinear axis

/-- The one source axis that is colinear with `target`, and its place. A second one is reported. -/
def matchAxis (source : List AxisDirection) (target : AxisDirection) :
    Except MatrixError (AxisDirection × Nat) :=
  match colinearAxes source target with
  | [] => .error (.axisNotFound target)
  | [found] => .ok found
  | _ :: (second, _) :: _ => .error (.colinearAxes second target)

/-- Maps each target axis to its colinear source axis, reversing it if it points the other way. -/
def betweenAxes (source target : List AxisDirection) : Except MatrixError (StoredMatrix α) := do
  let ordinates ← target.mapM fun axis => do
    let (found, index) ← matchAxis source axis
    return (⟨index, if found = axis then 1 else -1, 0⟩ : OrdinateMap α)
  return ofOrdinates source.length ordinates

/-- The linear map of an extent onto another for axes of the same or of opposite directions: the
source minimum goes to the target minimum or maximum respectively. -/
def alongAxis (index : Nat) (same : Bool) (source target : Extent α) : OrdinateMap α :=
  let sign : α := if same then 1 else -1
  let scale := sign * (target.span / source.span)
  let anchor := if same then target.minimum else target.maximum
  ⟨index, scale, anchor - source.minimum * scale⟩

/-- As `betweenAxes`, each axis being scaled and shifted so that the source envelope is mapped
onto the target envelope. -/
def betweenFrames (sourceEnvelope : Envelope α) (source : List AxisDirection)
    (targetEnvelope : Envelope α) (target : List AxisDirection) :
    Except MatrixError (StoredMatrix α) := do
  sourceEnvelope.checkDimension .source source.length
  targetEnvelope.checkDimension .destination target.length
  let ordinates ← (target.zip targetEnvelope.extents).mapM fun (axis, extent) => do
    let (found, index) ← matchAxis source axis
    return alongAxis index (found == axis) (sourceEnvelope.extents.getD index ⟨0, 0⟩) extent
  return ofOrdinates source.length ordinates

/-- Keeps the listed source ordinates in the listed order. -/
def selectOrdinates (sourceDimension : Nat) (selected : List Nat) :
    Except MatrixError (StoredMatrix α) := do
  let ordinates ← selected.mapM fun index =>
    if index < sourceDimension then .ok (⟨index, 1, 0⟩ : OrdinateMap α)
    else .error (.indexOutOfRange index sourceDimension)
  return ofOrdinates sourceDimension ordinates

/-- Applies `sub` to the ordinates between `leading` and `trailing` ones that pass unchanged. The
last row and the last column of `sub` become those of the result. -/
def passThrough (leading : Nat) (sub : HeldMatrix α) (trailing : Nat) :
    Except MatrixError (StoredMatrix α) :=
  if sub.numRow = 0 ∨ sub.numCol = 0 then
    .error (.illegalArgument (.emptySubMatrix sub.numRow sub.numCol))
  else
    let sources := sub.numCol - 1
    let targets := sub.numRow - 1
    let coefficient (row column : Nat) : α := sub.elements.getD (row * sub.numCol + column) 0
    let row (i j : Nat) : α :=
      if j < leading then 0
      else if j < leading + sources then coefficient i (j - leading)
      else if j < leading + sources + trailing then 0
      else coefficient i sources
    .ok (ofFn (targets + (leading + trailing) + 1) (sources + (leading + trailing) + 1) fun i j =>
      if i.val < leading then if j.val = i.val then 1 else 0
      else if i.val < leading + targets then row (i.val - leading) j.val
      else if i.val < leading + targets + trailing then
        if j.val + targets = i.val + sources then 1 else 0
      else row targets j.val)

end Georeferencing.StoredMatrix
