import Georeferencing.Matrix.Block

/-! # Gauss-Jordan elimination

A system `left * X = right` is turned, column by column, into one whose left side is the identity.
In each column the coefficient of largest magnitude among the rows not yet used becomes the pivot;
it must not be negligible relative to the largest magnitude of that column in the given matrix.
-/

namespace Georeferencing

/-- The two sides of `left * X = right`. -/
structure LinearSystem (n w : Nat) (α : Type) where
  left : Square n α
  right : Block n w α

namespace LinearSystem

variable {α : Type} [Scalar α] {n w : Nat}

/-- Recomputes the rows of both sides by one formula. -/
def mapRows (s : LinearSystem n w α)
    (f : {c : Nat} → Block n c α → Fin n → Fin c → α) : LinearSystem n w α :=
  ⟨Block.ofFn (f s.left), Block.ofFn (f s.right)⟩

/-- The row from `k` on with the largest magnitude in column `k`, the last one of equals. -/
def pivotRow (s : LinearSystem n w α) (k : Fin n) : Fin n :=
  ((List.finRange n).filter (k ≤ ·)).foldl
    (fun best i => if Scalar.magnitudeLE (s.left best k) (s.left i k) then i else best) k

def swapRows (s : LinearSystem n w α) (p q : Fin n) : LinearSystem n w α :=
  s.mapRows fun b i j => b (if i = p then q else if i = q then p else i) j

def divideRow (s : LinearSystem n w α) (k : Fin n) (divisor : α) : LinearSystem n w α :=
  s.mapRows fun b i j => if i = k then b i j / divisor else b i j

/-- Subtracts from each other row the multiple of row `k` that clears column `k`. A row that has a
zero there is left alone. -/
def clearColumn (s : LinearSystem n w α) (k : Fin n) : LinearSystem n w α :=
  s.mapRows fun b i j =>
    if i = k || s.left i k == 0 then b i j else b i j - s.left i k * b k j

/-- One column of the elimination, unless its pivot is negligible relative to `scale`. -/
def step? (scale : Fin n → α) (s : LinearSystem n w α) (k : Fin n) : Option (LinearSystem n w α) :=
  let p := s.pivotRow k
  let pivot := s.left p k
  if Scalar.vanishesBeside pivot (scale k) then none
  else some (((s.swapRows k p).divideRow k pivot).clearColumn k)

/-- The solution of the system, if no column has a negligible pivot. -/
def solve? (s : LinearSystem n w α) : Option (Block n w α) :=
  let scales := Vector.ofFn s.left.columnMagnitude
  ((List.finRange n).foldlM (step? scales.get) s).map (·.right)

end LinearSystem

/-- The inverse found by elimination. -/
def Square.eliminationInverse? {α : Type} [Scalar α] {n : Nat} (m : Square n α) :
    Option (Square n α) :=
  LinearSystem.solve? ⟨m, Block.diagonal n n⟩

end Georeferencing
