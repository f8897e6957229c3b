import Georeferencing.Decimal.Shortest

/-! # Texts of doubles

Matrices are printed with a point in every plain number, so that columns can be aligned on it;
messages name a number plainly.
-/

namespace Georeferencing

/-- Cells of a printed matrix have a point; below one ten-thousandth and from ten to the sixteenth
on they are written with an exponent. -/
def NumberStyle.cell : NumberStyle := ⟨true, some (-4, 15)⟩

/-- Numbers in messages never have an exponent, nor a point if they are integral. -/
def NumberStyle.message : NumberStyle := ⟨false, none⟩

/-- The shortest text that reads back as the same double, with the sign of zero. -/
def NumberStyle.ofFloat (style : NumberStyle) (x : Float) : String :=
  if x.isNaN then "NaN"
  else
    let sign := if Binary.isNegative x.toBits then "-" else ""
    sign ++ (if x.isInf then "inf" else (Decimal.shortest x.toBits).text style)

end Georeferencing
