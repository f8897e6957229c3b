import Georeferencing.Matrix.Flat
import Georeferencing.Matrix.RowMajor
import Georeferencing.Matrix.Square

/-! # Stored matrices

The matrices that the library makes. A square matrix of size one to four is held as a block of its
size, any other as a flat array; `ofBlock` makes this choice, and every factory goes through it. A
flat array may also be given directly, whatever its shape.
-/

namespace Georeferencing

/-- The sizes that have a storage of their own. -/
def IsSmall (n : Nat) : Prop := 1 ≤ n ∧ n ≤ 4

instance (n : Nat) : Decidable (IsSmall n) := inferInstanceAs (Decidable (_ ∧ _))

theorem isSmall_three : IsSmall 3 := by decide

inductive StoredMatrix (α : Type) where
  /-- A square matrix of size one to four. -/
  | small (n : Nat) (isSmall : IsSmall n) (m : Square n α)
  | flat (m : FlatMatrix α)
deriving DecidableEq

namespace StoredMatrix

variable {α : Type}

def numRow : StoredMatrix α → Nat
  | small n _ _ => n
  | flat m => m.numRow

def numCol : StoredMatrix α → Nat
  | small n _ _ => n
  | flat m => m.numCol

/-- The coefficients in row-major order. -/
def elements : StoredMatrix α → Array α
  | small _ _ m => m.elements.toArray
  | flat m => m.elements

/-- As many coefficients as the shape asks for. -/
def Consistent (m : StoredMatrix α) : Prop := m.elements.size = m.numRow * m.numCol

instance (m : StoredMatrix α) : Decidable m.Consistent := inferInstanceAs (Decidable (_ = _))

/-- Held in the storage that its shape asks for. -/
def Canonical : StoredMatrix α → Prop
  | small _ _ _ => True
  | flat m => m.Consistent ∧ ¬ (m.numRow = m.numCol ∧ IsSmall m.numRow)

/-- Holds the coefficients in the storage that their shape asks for. -/
def ofBlock {r c : Nat} (b : Block r c α) : StoredMatrix α :=
  if h : r = c ∧ IsSmall r then small r h.2 ⟨b.elements.cast (by rw [h.1])⟩
  else flat (.ofBlock b)

def ofFn (r c : Nat) (f : Fin r → Fin c → α) : StoredMatrix α := ofBlock (.ofFn f)

/-- The matrix with the given coefficients in row-major order. -/
def ofElements (numRow numCol : Nat) (elements : Array α) : Except MatrixError (StoredMatrix α) :=
  match Block.ofElements? numRow numCol elements with
  | some b => .ok (ofBlock b)
  | none => .error (.mismatchedLength (numRow * numCol) elements.size)

def refill (m : StoredMatrix α) (elements : Array α) : Except MatrixError (StoredMatrix α) :=
  match m with
  | small n h _ =>
    match Block.ofElements? n n elements with
    | some b => .ok (small n h b)
    | none => .error (.mismatchedLength (n * n) elements.size)
  | flat m => flat <$> m.refill elements

def set (m : StoredMatrix α) (row column : Nat) (value : α) :
    Except MatrixError (StoredMatrix α) :=
  match m with
  | small n h m => small n h <$> m.set row column value
  | flat m => flat <$> m.set row column value

@[simp]
theorem numRow_ofBlock {r c : Nat} (b : Block r c α) : (ofBlock b).numRow = r := by
  unfold ofBlock
  split <;> rfl

@[simp]
theorem numCol_ofBlock {r c : Nat} (b : Block r c α) : (ofBlock b).numCol = c := by
  unfold ofBlock
  split
  · next h => exact h.1
  · rfl

@[simp]
theorem elements_ofBlock {r c : Nat} (b : Block r c α) :
    (ofBlock b).elements = b.elements.toArray := by
  unfold ofBlock
  split <;> rfl

theorem consistent_ofBlock {r c : Nat} (b : Block r c α) : (ofBlock b).Consistent := by
  simp [Consistent]

theorem canonical_ofBlock {r c : Nat} (b : Block r c α) : (ofBlock b).Canonical := by
  unfold ofBlock
  split
  · trivial
  · next h => exact ⟨FlatMatrix.consistent_ofBlock b, h⟩

variable [Scalar α]

def get (m : StoredMatrix α) (row column : Nat) : Except MatrixError α :=
  match m with
  | small _ _ m => m.get row column
  | flat m => m.get row column

def zero (numRow numCol : Nat) : StoredMatrix α := ofBlock (.zero numRow numCol)

/-- Ones on the diagonal, zeros elsewhere; the shape need not be square. -/
def diagonal (numRow numCol : Nat) : StoredMatrix α := ofBlock (.diagonal numRow numCol)

def identity (size : Nat) : StoredMatrix α := diagonal size size

def isAffine (m : StoredMatrix α) : Bool := RowMajor.isAffine m.numRow m.numCol m.elements

def isIdentity (m : StoredMatrix α) : Bool := RowMajor.isIdentity m.numRow m.numCol m.elements

def transpose : StoredMatrix α → StoredMatrix α
  | small n h m => small n h m.transpose
  | flat m => flat m.transpose

/-- Divides every column by its Euclidean norm. -/
def unitColumns [Elementary α] : StoredMatrix α → StoredMatrix α
  | small n h m => small n h m.unitColumns
  | flat m => flat m.unitColumns

end StoredMatrix

variable {α : Type} [Scalar α]

/-- The inverse of a flat matrix, held as its shape asks for. A matrix that is not square has
none. -/
def FlatMatrix.inverse (m : FlatMatrix α) : Except MatrixError (StoredMatrix α) :=
  if m.numRow = m.numCol then
    match Square.eliminationInverse? (Block.ofArray m.numRow m.numRow m.elements) with
    | some b => .ok (.ofBlock b)
    | none => .error .nonInvertible
  else .error .nonInvertible

/-- The inverse; a small matrix stays in its storage. -/
def StoredMatrix.inverse : StoredMatrix α → Except MatrixError (StoredMatrix α)
  | small n h m =>
    match m.inverse? with
    | some b => .ok (small n h b)
    | none => .error .nonInvertible
  | flat m => m.inverse

end Georeferencing
