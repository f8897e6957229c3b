import Georeferencing.Checked
import Georeferencing.Matrix.Display

/-! # Printing cell by cell

A column is measured while its cells are read from the first row to the last: three widths grow on
the way, one of them being compared with the sum of the other two as they are at that moment. With
the widths that are reached at the end all cells are padded, the numbers of blanks and zeros being
differences that must not be negative.
-/

namespace Georeferencing

/-- The last place that holds a point. -/
def CellText.lastPoint? (t : CellText) : Option Nat :=
  (List.range t.length).reverse.find? fun k => t[k]? == some '.'

/-- The widths of a column as far as its cells have been read. -/
structure ColumnScan where
  /-- The widest cell with its margin, cells with a point being aligned on it. -/
  width : Nat
  /-- The most characters behind the point. -/
  fraction : Nat
  /-- The most characters up to the point, with the margin. -/
  head : Nat
deriving DecidableEq, Repr

namespace ColumnScan

/-- Before any cell is read. -/
def start : ColumnScan := ⟨0, 0, 0⟩

/-- The widths after one more cell. -/
def add (s : ColumnScan) (t : CellText) : Except StepFault ColumnScan :=
  match t.lastPoint? with
  | some dot => do
    let head := max s.head (dot + 1 + ColumnLayout.margin)
    let fraction := max s.fraction (← Checked.subtract t.length (dot + 1))
    return ⟨max s.width (head + fraction), fraction, head⟩
  | none => return { s with width := max s.width (t.length + ColumnLayout.margin) }

/-- A cell brought to the width of its column. -/
def pad (s : ColumnScan) (t : CellText) : Except StepFault (List Char) :=
  match t.lastPoint? with
  | some dot => do
    let blanks ← Checked.subtract (← Checked.subtract s.width s.fraction) (dot + 1)
    let zeros ← Checked.subtract s.fraction (← Checked.subtract t.length (dot + 1))
    return ColumnLayout.repeated ' ' blanks ++ t ++ ColumnLayout.repeated '0' zeros
  | none => return ColumnLayout.repeated ' ' (← Checked.subtract s.width t.length) ++ t

/-- The widths of a column whose cells are read from the first row to the last. -/
def ofColumn (numRow : Nat) (cell : Nat → Except StepFault CellText) :
    Except StepFault ColumnScan :=
  (List.range numRow).foldlM (fun s j => do s.add (← cell j)) start

end ColumnScan

/-- A line of cells, each brought to the width of its column. -/
def printRow (scans : List ColumnScan) (cell : Nat → Except StepFault CellText) :
    Except StepFault (List Char) := do
  let cells ← scans.zipIdx.mapM fun (s, i) => do s.pad (← cell i)
  return '│' :: cells.flatten ++ " │".toList

/-- The matrix in a frame, its coefficients written by `text`. -/
def HeldMatrix.print {α : Type} (text : α → String) (m : HeldMatrix α) :
    Except StepFault String := do
  let texts := m.elements.toList.map fun e => (text e).toList
  let cell (j i : Nat) := Checked.read texts (j * m.numCol + i)
  let scans ← (List.range m.numCol).mapM fun i => ColumnScan.ofColumn m.numRow fun j => cell j i
  let inner := ColumnLayout.repeated ' ' (1 + ColumnLayout.total (scans.map ColumnScan.width))
  let body ← (List.range m.numRow).mapM fun j => printRow scans (cell j)
  return joinLines (('┌' :: inner ++ ['┐']) :: body ++ ['└' :: inner ++ ['┘']])

end Georeferencing
