import Georeferencing.Matrix.Square

/-! # Numbered fields

The squares of size one to four as records with a field for each coefficient, numbered by its row
and its column. Every table names all fields: to read and to replace the coefficient at a row and a
column, to list all coefficients and to replace them by listed ones, and to exchange those on both
sides of the diagonal.
-/

namespace Georeferencing

variable {α : Type}

structure Fields1 (α : Type) where
  (m00 : α)

namespace Fields1

def toBlock (m : Fields1 α) : Square 1 α := .of1 m.m00

def get (m : Fields1 α) (row column : Nat) : Except MatrixError α :=
  match row, column with
  | 0, 0 => .ok m.m00
  | _, _ => .error (.indexOutOfBounds row column 1 1)

def set (m : Fields1 α) (row column : Nat) (value : α) : Except MatrixError (Fields1 α) :=
  match row, column with
  | 0, 0 => .ok { m with m00 := value }
  | _, _ => .error (.indexOutOfBounds row column 1 1)

def elements (m : Fields1 α) : Array α := #[m.m00]

def refill (_ : Fields1 α) (elements : Array α) : Except MatrixError (Fields1 α) :=
  if h : elements.size = 1 then
    .ok ⟨elements[0]⟩
  else .error (.mismatchedLength 1 elements.size)

/-- There is nothing to exchange. -/
def transpose (m : Fields1 α) : Fields1 α := m

end Fields1

structure Fields2 (α : Type) where
  (m00 m01 : α)
  (m10 m11 : α)

namespace Fields2

def toBlock (m : Fields2 α) : Square 2 α := .of2 m.m00 m.m01 m.m10 m.m11

def get (m : Fields2 α) (row column : Nat) : Except MatrixError α :=
  match row, column with
  | 0, 0 => .ok m.m00
  | 0, 1 => .ok m.m01
  | 1, 0 => .ok m.m10
  | 1, 1 => .ok m.m11
  | _, _ => .error (.indexOutOfBounds row column 2 2)

def set (m : Fields2 α) (row column : Nat) (value : α) : Except MatrixError (Fields2 α) :=
  match row, column with
  | 0, 0 => .ok { m with m00 := value }
  | 0, 1 => .ok { m with m01 := value }
  | 1, 0 => .ok { m with m10 := value }
  | 1, 1 => .ok { m with m11 := value }
  | _, _ => .error (.indexOutOfBounds row column 2 2)

def elements (m : Fields2 α) : Array α := #[m.m00, m.m01, m.m10, m.m11]

def refill (_ : Fields2 α) (elements : Array α) : Except MatrixError (Fields2 α) :=
  if h : elements.size = 4 then
    .ok ⟨elements[0], elements[1], elements[2], elements[3]⟩
  else .error (.mismatchedLength 4 elements.size)

def transpose (m : Fields2 α) : Fields2 α :=
  { m with m01 := m.m10, m10 := m.m01 }

end Fields2

structure Fields3 (α : Type) where
  (m00 m01 m02 : α)
  (m10 m11 m12 : α)
  (m20 m21 m22 : α)

namespace Fields3

def toBlock (m : Fields3 α) : Square 3 α :=
  .of3 m.m00 m.m01 m.m02 m.m10 m.m11 m.m12 m.m20 m.m21 m.m22

def get (m : Fields3 α) (row column : Nat) : Except MatrixError α :=
  match row, column with
  | 0, 0 => .ok m.m00
  | 0, 1 => .ok m.m01
  | 0, 2 => .ok m.m02
  | 1, 0 => .ok m.m10
  | 1, 1 => .ok m.m11
  | 1, 2 => .ok m.m12
  | 2, 0 => .ok m.m20
  | 2, 1 => .ok m.m21
  | 2, 2 => .ok m.m22
  | _, _ => .error (.indexOutOfBounds row column 3 3)

def set (m : Fields3 α) (row column : Nat) (value : α) : Except MatrixError (Fields3 α) :=
  match row, column with
  | 0, 0 => .ok { m with m00 := value }
  | 0, 1 => .ok { m with m01 := value }
  | 0, 2 => .ok { m with m02 := value }
  | 1, 0 => .ok { m with m10 := value }
  | 1, 1 => .ok { m with m11 := value }
  | 1, 2 => .ok { m with m12 := value }
  | 2, 0 => .ok { m with m20 := value }
  | 2, 1 => .ok { m with m21 := value }
  | 2, 2 => .ok { m with m22 := value }
  | _, _ => .error (.indexOutOfBounds row column 3 3)

def elements (m : Fields3 α) : Array α :=
  #[m.m00, m.m01, m.m02, m.m10, m.m11, m.m12, m.m20, m.m21, m.m22]

def refill (_ : Fields3 α) (elements : Array α) : Except MatrixError (Fields3 α) :=
  if h : elements.size = 9 then
    .ok ⟨elements[0], elements[1], elements[2], elements[3], elements[4], elements[5],
      elements[6], elements[7], elements[8]⟩
  else .error (.mismatchedLength 9 elements.size)

def transpose (m : Fields3 α) : Fields3 α :=
  let m := { m with m01 := m.m10, m10 := m.m01 }
  let m := { m with m02 := m.m20, m20 := m.m02 }
  { m with m12 := m.m21, m21 := m.m12 }

end Fields3

structure Fields4 (α : Type) where
  (m00 m01 m02 m03 : α)
  (m10 m11 m12 m13 : α)
  (m20 m21 m22 m23 : α)
  (m30 m31 m32 m33 : α)

namespace Fields4

def toBlock (m : Fields4 α) : Square 4 α :=
  ⟨#v[m.m00, m.m01, m.m02, m.m03, m.m10, m.m11, m.m12, m.m13,
    m.m20, m.m21, m.m22, m.m23, m.m30, m.m31, m.m32, m.m33]⟩

def get (m : Fields4 α) (row column : Nat) : Except MatrixError α :=
  match row, column with
  | 0, 0 => .ok m.m00
  | 0, 1 => .ok m.m01
  | 0, 2 => .ok m.m02
  | 0, 3 => .ok m.m03
  | 1, 0 => .ok m.m10
  | 1, 1 => .ok m.m11
  | 1, 2 => .ok m.m12
  | 1, 3 => .ok m.m13
  | 2, 0 => .ok m.m20
  | 2, 1 => .ok m.m21
  | 2, 2 => .ok m.m22
  | 2, 3 => .ok m.m23
  | 3, 0 => .ok m.m30
  | 3, 1 => .ok m.m31
  | 3, 2 => .ok m.m32
  | 3, 3 => .ok m.m33
  | _, _ => .error (.indexOutOfBounds row column 4 4)

def set (m : Fields4 α) (row column : Nat) (value : α) : Except MatrixError (Fields4 α) :=
  match row, column with
  | 0, 0 => .ok { m with m00 := value }
  | 0, 1 => .ok { m with m01 := value }
  | 0, 2 => .ok { m with m02 := value }
  | 0, 3 => .ok { m with m03 := value }
  | 1, 0 => .ok { m with m10 := value }
  | 1, 1 => .ok { m with m11 := value }
  | 1, 2 => .ok { m with m12 := value }
  | 1, 3 => .ok { m with m13 := value }
  | 2, 0 => .ok { m with m20 := value }
  | 2, 1 => .ok { m with m21 := value }
  | 2, 2 => .ok { m with m22 := value }
  | 2, 3 => .ok { m with m23 := value }
  | 3, 0 => .ok { m with m30 := value }
  | 3, 1 => .ok { m with m31 := value }
  | 3, 2 => .ok { m with m32 := value }
  | 3, 3 => .ok { m with m33 := value }
  | _, _ => .error (.indexOutOfBounds row column 4 4)

def elements (m : Fields4 α) : Array α :=
  #[m.m00, m.m01, m.m02, m.m03, m.m10, m.m11, m.m12, m.m13,
    m.m20, m.m21, m.m22, m.m23, m.m30, m.m31, m.m32, m.m33]

def refill (_ : Fields4 α) (elements : Array α) : Except MatrixError (Fields4 α) :=
  if h : elements.size = 16 then
    .ok ⟨elements[0], elements[1], elements[2], elements[3], elements[4], elements[5],
      elements[6], elements[7], elements[8], elements[9], elements[10], elements[11],
      elements[12], elements[13], elements[14], elements[15]⟩
  else .error (.mismatchedLength 16 elements.size)

def transpose (m : Fields4 α) : Fields4 α :=
  let m := { m with m01 := m.m10, m10 := m.m01 }
  let m := { m with m02 := m.m20, m20 := m.m02 }
  let m := { m with m03 := m.m30, m30 := m.m03 }
  let m := { m with m12 := m.m21, m21 := m.m12 }
  let m := { m with m13 := m.m31, m31 := m.m13 }
  { m with m23 := m.m32, m32 := m.m23 }

end Fields4

end Georeferencing
