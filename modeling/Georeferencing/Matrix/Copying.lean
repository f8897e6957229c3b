import Georeferencing.Matrix.Held

/-! # Copies made place by place

A copy takes the listed coefficients. If these do not fill the shape, it goes through the places of
the shape in row-major order, finds the row and the column of each by a division, and asks the
reader. On the way there may be no row length to divide by, and at the end there may be too few
coefficients, in which case zeros are taken instead.
-/

namespace Georeferencing

/-- A place that has no row and no column, since rows are empty. -/
structure EmptyRows where
  place : Nat
deriving DecidableEq, Repr

/-- The row and the column of a place. -/
def splitPlace (numCol place : Nat) : Except EmptyRows (Nat × Nat) :=
  if numCol = 0 then .error ⟨place⟩ else .ok (place / numCol, place % numCol)

namespace HeldMatrix

variable {α : Type} [Scalar α]

/-- The coefficient at a place, as the reader gives it. -/
def readPlace (m : HeldMatrix α) (place : Nat) : Except EmptyRows α := do
  let (row, column) ← splitPlace m.numCol place
  return m.read row column

/-- The coefficients at all places of the shape. -/
def reread (m : HeldMatrix α) : Except EmptyRows (Array α) := do
  let values ← (List.range (m.numRow * m.numCol)).mapM m.readPlace
  return values.toArray

/-- The coefficients that a copy is made of. -/
def gather (m : HeldMatrix α) : Except EmptyRows (Array α) :=
  if m.elements.size = m.numRow * m.numCol then .ok m.elements else m.reread

/-- What copying ends with. -/
inductive CopyOutcome (α : Type) where
  | copied (x : StoredMatrix α)
  /-- The coefficients did not fill the shape. -/
  | zeroed (x : StoredMatrix α)

def makeCopy (m : HeldMatrix α) : Except EmptyRows (CopyOutcome α) := do
  let elements ← m.gather
  match StoredMatrix.ofElements m.numRow m.numCol elements with
  | .ok x => return .copied x
  | .error _ => return .zeroed (.zero m.numRow m.numCol)

end HeldMatrix

end Georeferencing
