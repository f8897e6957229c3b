import Georeferencing.Matrix.Held

/-! # Printed matrices

A matrix is printed in a frame, one line per row. The cells of a column that have a point are
aligned on it and filled with zeros to the same number of fraction digits; cells without one (not
a number, infinite, some exponent forms) end at the right edge of their column.

    ┌                ┐
    │    1.5  -20.00 │
    │  300.0    0.25 │
    └                ┘
-/

namespace Georeferencing

/-- The text of a cell. -/
abbrev CellText := List Char

namespace CellText

def hasPoint (t : CellText) : Bool := t.contains '.'

/-- The number of characters after the last point. -/
def fractionLength (t : CellText) : Nat := (t.reverse.takeWhile (· != '.')).length

/-- The number of characters up to and including the last point. -/
def headLength (t : CellText) : Nat := t.length - t.fractionLength

end CellText

/-- Widths of a column: in all, and of the part behind the point. -/
structure ColumnLayout where
  width : Nat
  fraction : Nat
deriving DecidableEq, Repr

namespace ColumnLayout

/-- Blanks before the widest cell of a column. -/
def margin : Nat := 2

def maximum (xs : List Nat) : Nat := xs.foldl max 0

def total (xs : List Nat) : Nat := xs.foldl (· + ·) 0

/-- The layout that fits the cells of a column: heads and fractions are measured apart, so that
aligned cells fit too. -/
def ofCells (cells : List CellText) : ColumnLayout :=
  let pointed := cells.filter CellText.hasPoint
  let plain := cells.filter (!·.hasPoint)
  let head := maximum (pointed.map fun t => t.headLength + margin)
  let fraction := maximum (pointed.map CellText.fractionLength)
  let text := maximum (plain.map fun t => t.length + margin)
  ⟨max (head + fraction) text, fraction⟩

def repeated (c : Char) (count : Nat) : List Char := List.replicate count c

/-- A cell brought to the width of its column. -/
def pad (layout : ColumnLayout) (t : CellText) : List Char :=
  if t.hasPoint then
    repeated ' ' (layout.width - layout.fraction - t.headLength) ++ t ++
      repeated '0' (layout.fraction - t.fractionLength)
  else repeated ' ' (layout.width - t.length) ++ t

end ColumnLayout

/-- The lines of the frame around rows of cells. Each row has `numCol` cells. -/
def frameLines (numCol : Nat) (rows : List (List CellText)) : List (List Char) :=
  let layouts := (List.range numCol).map fun i =>
    ColumnLayout.ofCells (rows.map fun row => row.getD i [])
  let inner := ColumnLayout.repeated ' ' (ColumnLayout.total (layouts.map ColumnLayout.width) + 1)
  let body := rows.map fun row => '│' :: (layouts.zipWith ColumnLayout.pad row).flatten ++ " │".toList
  ('┌' :: inner ++ ['┐']) :: body ++ ['└' :: inner ++ ['┘']]

/-- Every line, also the last one, ends with a line feed. -/
def joinLines (lines : List (List Char)) : String :=
  String.ofList (lines.flatMap (· ++ ['\n']))

namespace HeldMatrix

variable {α : Type}

/-- The listed coefficients row by row, each turned into the text of a cell. -/
def cellRows [Zero α] (text : α → String) (m : HeldMatrix α) : List (List CellText) :=
  (List.range m.numRow).map fun i => (List.range m.numCol).map fun j =>
    (text (m.elements.getD (i * m.numCol + j) 0)).toList

/-- The matrix in a frame, its coefficients written by `text`. -/
def render [Zero α] (text : α → String) (m : HeldMatrix α) : String :=
  joinLines (frameLines m.numCol (m.cellRows text))

end HeldMatrix

end Georeferencing
