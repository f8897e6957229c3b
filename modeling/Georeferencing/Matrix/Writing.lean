import Georeferencing.Checked
import Georeferencing.Matrix.Construction

/-! # Constructions carried out cell by cell

A matrix of coordinate operations is made from a matrix of zeros, into which coefficients are
written one after the other. A plan lists the writes in this order; each of them may turn out to
read a list past its end, to subtract below zero, or to miss the matrix.
-/

namespace Georeferencing.StoredMatrix

variable {α : Type}

/-- A coefficient and the place where it is written. -/
structure CellWrite (α : Type) where
  row : Nat
  column : Nat
  value : α

/-- Writes as planned, until something stops it. -/
def carryOut (start : StoredMatrix α) (plan : List (Except StepFault (CellWrite α))) :
    Except StepFault (StoredMatrix α) :=
  plan.foldlM (fun m step => do
    let w ← step
    Checked.ofMatrix (m.set w.row w.column w.value)) start

variable [Scalar α]

/-- The writes that map one extent onto another. -/
def planBetweenExtents (source target : Envelope α) (i : Nat) :
    List (Except StepFault (CellWrite α)) :=
  let ordinate := do
    let s ← Checked.read source.extents i
    let t ← Checked.read target.extents i
    return betweenExtents i s t
  [do return ⟨i, i, (← ordinate).scale⟩, do return ⟨i, source.dimension, (← ordinate).offset⟩]

/-- Maps an envelope onto another, the dimensions that both have one by one. -/
def writeBetweenEnvelopes (source target : Envelope α) : Except StepFault (StoredMatrix α) :=
  let n := source.dimension
  let m := target.dimension
  (zero (m + 1) (n + 1)).carryOut <|
    (List.range (min n m)).flatMap (planBetweenExtents source target) ++ [.ok ⟨m, n, 1⟩]

/-- The write that makes the source ordinate `index` the target ordinate `j`. -/
def planSelected (sourceDimension j index : Nat) : Except StepFault (CellWrite α) :=
  if index < sourceDimension then .ok ⟨j, index, 1⟩
  else .error (.refused (.indexOutOfRange index sourceDimension))

/-- Writes a one for each of the listed ordinates, until the source does not have one of them. -/
def writeSelectOrdinates (sourceDimension : Nat) (selected : List Nat) :
    Except StepFault (StoredMatrix α) :=
  (zero (selected.length + 1) (sourceDimension + 1)).carryOut <|
    selected.mapIdx (planSelected sourceDimension) ++
      [.ok ⟨selected.length, sourceDimension, 1⟩]

/-- The writes that copy row `j` of a matrix into `row`, its last coefficient into the column
`last`. -/
def planSubRow (sub : HeldMatrix α) (leading sources last j row : Nat) :
    List (Except StepFault (CellWrite α)) :=
  let coefficient i := Checked.read sub.elements.toList (j * sub.numCol + i)
  (List.range sources).map (fun i => do return ⟨row, leading + i, ← coefficient i⟩) ++
    [do return ⟨row, last, ← coefficient sources⟩]

/-- Writes a one for each ordinate that passes, and row by row the matrix that is applied to the
others. -/
def writePassThrough (leading : Nat) (sub : HeldMatrix α) (trailing : Nat) :
    Except StepFault (StoredMatrix α) :=
  if sub.numRow = 0 ∨ sub.numCol = 0 then
    Checked.ofMatrix (.error (.illegalArgument (.emptySubMatrix sub.numRow sub.numCol)))
  else do
    let sources ← Checked.subtract sub.numCol 1
    let targets ← Checked.subtract sub.numRow 1
    let lastColumn := sources + (leading + trailing)
    let lastRow := targets + (leading + trailing)
    let firstTrailing ← Checked.subtract lastColumn trailing
    (zero (lastRow + 1) (lastColumn + 1)).carryOut <|
      (List.range leading).map (fun j => .ok ⟨j, j, 1⟩) ++
      (List.range targets).flatMap
        (fun j => planSubRow sub leading sources lastColumn j (leading + j)) ++
      (List.range' firstTrailing (lastColumn - firstTrailing)).map
        (fun i => do return ⟨← Checked.subtract (i + targets) sources, i, 1⟩) ++
      planSubRow sub leading sources lastColumn targets lastRow

/-! ## Axes

Every source axis is looked at for every target axis, and the coefficients of one that is colinear
are written at once. Whether there is none, or a second one, shows only on the way.
-/

/-- What a source axis contributes to a colinear target axis: a sign, or the linear map of its
extent, if there are envelopes, onto that of the target. -/
def ordinateAlong (envelopes : Option (Envelope α × Envelope α)) (same : Bool)
    (sourceIndex targetIndex : Nat) : Except StepFault (OrdinateMap α) :=
  let sign : α := if same then 1 else -1
  match envelopes with
  | none => .ok ⟨sourceIndex, sign, 0⟩
  | some (source, target) => do
    let t ← Checked.read target.extents targetIndex
    let s ← Checked.read source.extents sourceIndex
    let anchor := if same then t.minimum else t.maximum
    let scale := sign * (t.span / s.span)
    return ⟨sourceIndex, scale, anchor - s.minimum * scale⟩

/-- The matrix as written so far, and whether the axis that is searched has been found. -/
structure AxisSearch (α : Type) where
  matrix : StoredMatrix α
  found : Bool

/-- Writes the coefficients of a colinear source axis, unless it is the second one. -/
def AxisSearch.enter (envelopes : Option (Envelope α × Envelope α)) (sourceDimension : Nat)
    (target : AxisDirection × Nat) (search : AxisSearch α) (source : AxisDirection × Nat) :
    Except StepFault (AxisSearch α) :=
  if search.found then .error (.refused (.colinearAxes source.1 target.1))
  else do
    let o ← ordinateAlong envelopes (source.1 == target.1) source.2 target.2
    let scaled ← Checked.ofMatrix (search.matrix.set target.2 source.2 o.scale)
    let shifted ← Checked.ofMatrix (scaled.set target.2 sourceDimension o.offset)
    return ⟨shifted, true⟩

/-- Looks at one source axis. -/
def AxisSearch.visit (envelopes : Option (Envelope α × Envelope α)) (sourceDimension : Nat)
    (target : AxisDirection × Nat) (search : AxisSearch α) (source : AxisDirection × Nat) :
    Except StepFault (AxisSearch α) :=
  if target.1.absolute ≠ source.1.absolute then .ok search
  else search.enter envelopes sourceDimension target source

/-- Looks at all source axes for one target axis. -/
def writeAxis (envelopes : Option (Envelope α × Envelope α)) (source : List AxisDirection)
    (m : StoredMatrix α) (target : AxisDirection × Nat) : Except StepFault (StoredMatrix α) := do
  let search ← source.zipIdx.foldlM (AxisSearch.visit envelopes source.length target) ⟨m, false⟩
  if search.found then return search.matrix
  else .error (.refused (.axisNotFound target.1))

/-- Maps the target axes one after the other. -/
def writeAxes (envelopes : Option (Envelope α × Envelope α)) (source target : List AxisDirection) :
    Except StepFault (StoredMatrix α) := do
  let m ← target.zipIdx.foldlM (writeAxis envelopes source)
    (zero (target.length + 1) (source.length + 1))
  Checked.ofMatrix (m.set target.length source.length 1)

/-- Maps each target axis to its colinear source axis. -/
def writeBetweenAxes (source target : List AxisDirection) : Except StepFault (StoredMatrix α) :=
  writeAxes none source target

/-- Maps the axes so that the source envelope goes onto the target envelope. -/
def writeBetweenFrames (sourceEnvelope : Envelope α) (source : List AxisDirection)
    (targetEnvelope : Envelope α) (target : List AxisDirection) :
    Except StepFault (StoredMatrix α) := do
  Checked.ofMatrix (sourceEnvelope.checkDimension .source source.length)
  Checked.ofMatrix (targetEnvelope.checkDimension .destination target.length)
  writeAxes (some (sourceEnvelope, targetEnvelope)) source target

end Georeferencing.StoredMatrix
