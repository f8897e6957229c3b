import Georeferencing.Checked
import Georeferencing.Matrix.Stored

/-! # Unit columns in place

The columns of a matrix are divided by their norms where they are stored, one coefficient after the
other. A norm has to be read before the first coefficient of its column is overwritten. The smallest
squares read all norms first; a square of size four and a flat array read each norm when its column
is due.
-/

namespace Georeferencing

variable {α : Type} [Scalar α]

namespace RowMajor

/-- The places of a column, from the first row to the last. -/
def columnPlaces (numRow numCol column : Nat) : List Nat :=
  (List.range numRow).map fun row => row * numCol + column

/-- Divides the coefficient at a place. -/
def divideAt (divisor : α) (elements : Array α) (place : Nat) : Except StepFault (Array α) := do
  return elements.setIfInBounds place ((← Checked.read elements.toList place) / divisor)

/-- Divides the coefficients of a column one after the other. -/
def divideColumn (numRow numCol : Nat) (elements : Array α) (column : Nat) (divisor : α) :
    Except StepFault (Array α) :=
  (columnPlaces numRow numCol column).foldlM (divideAt divisor) elements

variable [Elementary α]

/-- The norm of a column as it is stored at the moment. -/
def readNorm (numRow numCol : Nat) (elements : Array α) (column : Nat) : Except StepFault α := do
  let entries ← (columnPlaces numRow numCol column).mapM (Checked.read elements.toList)
  return Elementary.sqrt (Scalar.sum (entries.map Scalar.square))

/-- Takes the columns in turn and reads the norm of each when it is due. -/
def normalizeInTurn (numRow numCol : Nat) (elements : Array α) : Except StepFault (Array α) :=
  (List.range numCol).foldlM (fun current column => do
    divideColumn numRow numCol current column (← readNorm numRow numCol current column)) elements

end RowMajor

namespace Square

/-- Divides the columns in turn by norms that are known beforehand. -/
def divideTogether {n : Nat} (m : Square n α) (norms : List α) : Except StepFault (Array α) :=
  norms.zipIdx.foldlM (fun current (norm, column) =>
    RowMajor.divideColumn n n current column norm) m.elements.toArray

/-- The coefficients divided in place. Up to size three all norms are read beforehand. -/
def normalize [Elementary α] : {n : Nat} → Square n α → Except StepFault (Array α)
  | 1, m => m.divideTogether ((List.finRange 1).map m.columnNorm)
  | 2, m => m.divideTogether ((List.finRange 2).map m.columnNorm)
  | 3, m => m.divideTogether ((List.finRange 3).map m.columnNorm)
  | n, m => RowMajor.normalizeInTurn n n m.elements.toArray

end Square

/-- Divides every column by its Euclidean norm, in place. -/
def StoredMatrix.normalize [Elementary α] : StoredMatrix α → Except StepFault (StoredMatrix α)
  | small n h m => do Checked.ofMatrix ((small n h m).refill (← m.normalize))
  | flat m => do
    return flat { m with elements := ← RowMajor.normalizeInTurn m.numRow m.numCol m.elements }

end Georeferencing
