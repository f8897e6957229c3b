import Georeferencing.Scalar
import Georeferencing.Matrix.Error

/-! # Blocks

A block is a rectangle of coefficients whose shape is part of its type. Coefficients are stored in
row-major order; `ofFn` tabulates a function of row and column, `entry` reads it back, and blocks
with the same entries are the same, so that nothing else looks at the storage.
-/

namespace Georeferencing

/-- A table of `r` rows and `c` columns, stored row by row. -/
structure Block (r c : Nat) (α : Type) where
  elements : Vector α (r * c)
deriving DecidableEq

/-- A block with as many rows as columns. -/
abbrev Square (n : Nat) (α : Type) := Block n n α

/-- Place of row `i` and column `j` in row-major order. -/
theorem rowMajor_lt {r c i j : Nat} (hi : i < r) (hj : j < c) : i * c + j < r * c :=
  calc i * c + j < (i + 1) * c := by rw [Nat.add_mul]; omega
    _ ≤ r * c := Nat.mul_le_mul_right c hi

theorem rowMajor_div {c i j : Nat} (hj : j < c) : (i * c + j) / c = i := by
  rw [Nat.mul_comm, Nat.mul_add_div (Nat.zero_lt_of_lt hj), Nat.div_eq_of_lt hj, Nat.add_zero]

theorem rowMajor_mod {c i j : Nat} (hj : j < c) : (i * c + j) % c = j := by
  rw [Nat.mul_comm, Nat.mul_add_mod, Nat.mod_eq_of_lt hj]

theorem pos_of_lt_mul {r c k : Nat} (h : k < r * c) : 0 < c :=
  Nat.pos_of_ne_zero fun hc => by simp [hc] at h

namespace Block

variable {α β : Type} {r c w n : Nat}

def entry (b : Block r c α) (i : Fin r) (j : Fin c) : α :=
  have := rowMajor_lt i.isLt j.isLt
  b.elements[i.val * c + j.val]

instance : CoeFun (Block r c α) fun _ => Fin r → Fin c → α := ⟨entry⟩

def ofFn (f : Fin r → Fin c → α) : Block r c α :=
  ⟨Vector.ofFn fun k =>
    f ⟨k.val / c, Nat.div_lt_of_lt_mul (Nat.mul_comm r c ▸ k.isLt)⟩
      ⟨k.val % c, Nat.mod_lt _ (pos_of_lt_mul k.isLt)⟩⟩

@[simp]
theorem entry_ofFn (f : Fin r → Fin c → α) (i : Fin r) (j : Fin c) : (ofFn f).entry i j = f i j := by
  have hi : (i.val * c + j.val) / c = i.val := rowMajor_div j.isLt
  have hj : (i.val * c + j.val) % c = j.val := rowMajor_mod j.isLt
  simp [entry, ofFn, hi, hj]

@[ext]
theorem ext {a b : Block r c α} (h : ∀ i j, a.entry i j = b.entry i j) : a = b := by
  obtain ⟨a⟩ := a
  obtain ⟨b⟩ := b
  congr 1
  apply Vector.ext
  intro k hk
  have hc : 0 < c := pos_of_lt_mul hk
  have hr : k / c < r := Nat.div_lt_of_lt_mul (Nat.mul_comm r c ▸ hk)
  have := h ⟨k / c, hr⟩ ⟨k % c, Nat.mod_lt _ hc⟩
  simpa [entry, Nat.div_add_mod'] using this

/-- The block with the given coefficients in row-major order, if there are as many as needed. -/
def ofElements? (r c : Nat) (elements : Array α) : Option (Block r c α) :=
  if h : elements.size = r * c then some ⟨⟨elements, h⟩⟩ else none

/-- The block read from an array in row-major order, zero where the array has no coefficient. -/
def ofArray [Zero α] (r c : Nat) (elements : Array α) : Block r c α :=
  ofFn fun i j => elements.getD (i.val * c + j.val) 0

/-- The coefficient at a row and a column, which must be within the shape. -/
def get (b : Block r c α) (row column : Nat) : Except MatrixError α :=
  if h : row < r ∧ column < c then .ok (b ⟨row, h.1⟩ ⟨column, h.2⟩)
  else .error (.indexOutOfBounds row column r c)

/-- Replaces the coefficient at a row and a column, which must be within the shape. -/
def set (b : Block r c α) (row column : Nat) (value : α) : Except MatrixError (Block r c α) :=
  if row < r ∧ column < c then
    .ok (ofFn fun i j => if i.val = row ∧ j.val = column then value else b i j)
  else .error (.indexOutOfBounds row column r c)

def transpose (b : Block r c α) : Block c r α := ofFn fun i j => b j i

@[simp]
theorem entry_transpose (b : Block r c α) (i : Fin c) (j : Fin r) :
    b.transpose.entry i j = b.entry j i := by
  simp [transpose]

/-- The coefficients of column `j` from the first row to the last. -/
def column (b : Block r c α) (j : Fin c) : List α := (List.finRange r).map fun i => b i j

variable [Scalar α]

def zero (r c : Nat) : Block r c α := ofFn fun _ _ => 0

/-- Ones on the diagonal, zeros elsewhere; the shape need not be square. -/
def diagonal (r c : Nat) : Block r c α := ofFn fun i j => if i.val = j.val then 1 else 0

/-- Divides each column by a number of its own. -/
def divideColumns (b : Block r c α) (divisor : Fin c → α) : Block r c α :=
  let divisors := Vector.ofFn divisor
  ofFn fun i j => b i j / divisors[j]

@[simp]
theorem entry_divideColumns (b : Block r c α) (divisor : Fin c → α) (i : Fin r) (j : Fin c) :
    (b.divideColumns divisor).entry i j = b.entry i j / divisor j := by
  simp [divideColumns]

/-- The largest magnitude in column `j`. -/
def columnMagnitude (b : Block r c α) (j : Fin c) : α :=
  (b.column j).foldl (fun largest e => Scalar.max largest (Scalar.abs e)) 0

/-- Euclidean norm of column `j`. -/
def columnNorm [Elementary α] (b : Block r c α) (j : Fin c) : α :=
  Elementary.sqrt (Scalar.sum ((b.column j).map Scalar.square))

end Block

end Georeferencing
