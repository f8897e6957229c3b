import Georeferencing.Matrix.Held

/-! # Products and linear systems

`HeldMatrix.product` multiplies any two matrices coefficient by coefficient; `StoredMatrix.mul`
takes the closed formulas of sizes two and three where both operands are stored that way.
-/

namespace Georeferencing

variable {α : Type} [Scalar α]

/-- Fails unless a matrix has the expected number of rows. -/
def HeldMatrix.checkRows (expected : Nat) (m : HeldMatrix α) : Except MatrixError Unit :=
  if m.numRow = expected then .ok ()
  else .error (.mismatchedSize expected m.numRow m.numCol)

/-- The matrix product; the columns of `a` must be as many as the rows of `b`. -/
def HeldMatrix.product (a b : HeldMatrix α) : Except MatrixError (StoredMatrix α) := do
  b.checkRows a.numCol
  return .ofFn a.numRow b.numCol fun i j =>
    Scalar.sum ((List.range a.numCol).map fun k =>
      a.elements.getD (i.val * a.numCol + k) 0 * b.elements.getD (k * b.numCol + j.val) 0)

namespace StoredMatrix

/-- The matrix product, by closed formulas for two stored matrices of size two or three. -/
def mul (a : StoredMatrix α) (b : HeldMatrix α) : Except MatrixError (StoredMatrix α) :=
  match a, b with
  | small 2 h x, .stored (small 2 _ y) => .ok (small 2 h (x.product2 y))
  | small 3 h x, .stored (small 3 _ y) => .ok (small 3 h (x.product3 y))
  | _, _ => HeldMatrix.product (.stored a) b

end StoredMatrix

/-- Solves `m * X = b` for a matrix of size one by dividing every coefficient. -/
def Square.solve1 (m : Square 1 α) (b : HeldMatrix α) : Except MatrixError (StoredMatrix α) := do
  b.checkRows 1
  if m.single == 0 then .error .nonInvertible
  else StoredMatrix.ofElements 1 b.numCol (b.elements.map (· / m.single))

/-- Solves `a * X = b` by elimination. The rows are compared before anything else; a matrix that
is not square can not be solved. -/
def HeldMatrix.solve (a b : HeldMatrix α) : Except MatrixError (StoredMatrix α) := do
  b.checkRows a.numRow
  if a.numCol = a.numRow then
    match LinearSystem.solve? ⟨.ofArray a.numRow a.numRow a.elements,
        .ofArray a.numRow b.numCol b.elements⟩ with
    | some x => .ok (.ofBlock x)
    | none => .error .nonInvertible
  else .error .nonInvertible

/-- Solves `a * X = b` for `X`. -/
def StoredMatrix.solve (a : StoredMatrix α) (b : HeldMatrix α) :
    Except MatrixError (StoredMatrix α) :=
  match a with
  | small 1 _ m => m.solve1 b
  | _ => HeldMatrix.solve (.stored a) b

end Georeferencing
