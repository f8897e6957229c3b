import Mathlib.Data.Matrix.Mul
import Georeferencing.Proofs.Exact
import Georeferencing.Matrix.Product

/-! # Stored matrices as matrices

A matrix that is held row by row is read as a function of row and column, so that the laws of
matrix algebra apply to it. The product of stored matrices is the matrix product, whichever formula
computes it, and the result is stored as its shape asks for.
-/

namespace Georeferencing

variable {α : Type} {r c n : ℕ}

/-- The coefficients of rows of length `numCol`, read as a matrix of the given shape. -/
def RowMajor.toMatrix [Zero α] (numCol : ℕ) (elements : Array α) (r c : ℕ) :
    Matrix (Fin r) (Fin c) α :=
  fun i j => elements.getD (i * numCol + j) 0

namespace Block

/-- The block as a matrix. -/
def toMatrix (b : Block r c α) : Matrix (Fin r) (Fin c) α := fun i j => b i j

@[simp] theorem toMatrix_apply (b : Block r c α) (i : Fin r) (j : Fin c) :
    b.toMatrix i j = b i j := rfl

theorem toMatrix_ofFn (f : Fin r → Fin c → α) : (ofFn f).toMatrix = Matrix.of f := by
  funext i j
  rw [toMatrix_apply, entry_ofFn, Matrix.of_apply]

/-- The block that holds a matrix. -/
def ofMatrix (a : Matrix (Fin r) (Fin c) α) : Block r c α := ofFn fun i j => a i j

@[simp] theorem toMatrix_ofMatrix (a : Matrix (Fin r) (Fin c) α) : (ofMatrix a).toMatrix = a := by
  rw [ofMatrix, toMatrix_ofFn]
  rfl

theorem toMatrix_injective {a b : Block r c α} (h : a.toMatrix = b.toMatrix) : a = b := by
  ext i j
  exact congrFun (congrFun h i) j

theorem getD_elements [Zero α] (b : Block r c α) (i : Fin r) (j : Fin c) :
    b.elements.toArray.getD (i * c + j) 0 = b i j := by
  have h : i * c + j < r * c := rowMajor_lt i.isLt j.isLt
  simp [entry, h]

@[simp] theorem rowMajor_toMatrix [Zero α] (b : Block r c α) :
    RowMajor.toMatrix c b.elements.toArray r c = b.toMatrix := by
  funext i j
  exact b.getD_elements i j

/-- A block read from an array has the coefficients that the array lists for its shape. -/
theorem toMatrix_ofArray [Zero α] (elements : Array α) :
    (ofArray r c elements).toMatrix = RowMajor.toMatrix c elements r c := by
  rw [ofArray, toMatrix_ofFn]
  rfl

theorem ofArray_elements [Zero α] (b : Block r c α) : ofArray r c b.elements.toArray = b :=
  toMatrix_injective (by rw [toMatrix_ofArray, rowMajor_toMatrix])

end Block

namespace HeldMatrix

def toMatrix [Zero α] (m : HeldMatrix α) (r c : ℕ) : Matrix (Fin r) (Fin c) α :=
  RowMajor.toMatrix m.numCol m.elements r c

theorem consistent_square [Scalar α] (m : Square n α) : (square n m).Consistent := by
  constructor
  · exact m.elements.size_toArray
  intro row column
  change m.get row column = if row < n ∧ column < n then
    .ok (m.elements.toArray.getD (row * n + column) 0)
    else .error (.indexOutOfBounds row column n n)
  rw [Block.get]
  split
  · next h => exact congrArg Except.ok (m.getD_elements ⟨row, h.1⟩ ⟨column, h.2⟩).symm
  · rfl

end HeldMatrix

namespace StoredMatrix

/-- The coefficients of a stored matrix; `r` and `c` are meant to be its shape. -/
def toMatrix [Zero α] (m : StoredMatrix α) (r c : ℕ) : Matrix (Fin r) (Fin c) α :=
  RowMajor.toMatrix m.numCol m.elements r c

@[simp] theorem toMatrix_small [Zero α] (h : IsSmall n) (b : Square n α) :
    (small n h b).toMatrix n n = b.toMatrix :=
  b.rowMajor_toMatrix

@[simp] theorem toMatrix_ofBlock [Zero α] (b : Block r c α) :
    (ofBlock b).toMatrix r c = b.toMatrix := by
  rw [toMatrix, numCol_ofBlock, elements_ofBlock, Block.rowMajor_toMatrix]

/-- The stored form of a matrix. -/
def ofMatrix (a : Matrix (Fin r) (Fin c) α) : StoredMatrix α := ofBlock (Block.ofMatrix a)

@[simp] theorem toMatrix_ofMatrix [Zero α] (a : Matrix (Fin r) (Fin c) α) :
    (ofMatrix a).toMatrix r c = a := by
  rw [ofMatrix, toMatrix_ofBlock, Block.toMatrix_ofMatrix]

theorem ofMatrix_toMatrix (b : Block r c α) : ofMatrix b.toMatrix = ofBlock b :=
  congrArg ofBlock (Block.toMatrix_injective (Block.toMatrix_ofMatrix _))

theorem Canonical.consistent {m : StoredMatrix α} (h : m.Canonical) : m.Consistent := by
  cases m with
  | small n hn b => exact b.elements.size_toArray
  | flat m => exact h.1

/-- The coefficients of a consistent matrix as a block of its shape. -/
theorem Consistent.exists_block [Zero α] {m : StoredMatrix α} (h : m.Consistent)
    (hr : m.numRow = r) (hc : m.numCol = c) :
    ∃ b : Block r c α, m.elements = b.elements.toArray ∧ m.toMatrix r c = b.toMatrix := by
  subst hr hc
  exact ⟨⟨⟨m.elements, h⟩⟩, rfl, Block.rowMajor_toMatrix ⟨⟨m.elements, h⟩⟩⟩

theorem elements_eq_of_toMatrix_eq [Zero α] {a b : StoredMatrix α} (ha : a.Consistent)
    (hb : b.Consistent) (har : a.numRow = r) (hac : a.numCol = c) (hbr : b.numRow = r)
    (hbc : b.numCol = c) (h : a.toMatrix r c = b.toMatrix r c) : a.elements = b.elements := by
  obtain ⟨x, hax, hx⟩ := ha.exists_block har hac
  obtain ⟨y, hby, hy⟩ := hb.exists_block hbr hbc
  have hxy : x = y := Block.toMatrix_injective (by rw [← hx, h, hy])
  rw [hax, hby, hxy]

theorem ofBlock_square (h : IsSmall n) (b : Square n α) : ofBlock b = small n h b := by
  rw [ofBlock, dif_pos ⟨rfl, h⟩]
  rfl

/-- The storage that a shape asks for and the coefficients determine a matrix. -/
theorem Canonical.eq_ofMatrix [Zero α] {m : StoredMatrix α} (h : m.Canonical)
    (hr : m.numRow = r) (hc : m.numCol = c) : m = ofMatrix (m.toMatrix r c) := by
  cases m with
  | small n hn m =>
    obtain rfl : n = r := hr
    obtain rfl : n = c := hc
    rw [toMatrix_small, ofMatrix_toMatrix, ofBlock_square hn]
  | flat m =>
    obtain ⟨numRow, numCol, elements⟩ := m
    obtain rfl : numRow = r := hr
    obtain rfl : numCol = c := hc
    have hshape : ¬ (numRow = numCol ∧ IsSmall numRow) := h.2
    obtain ⟨b, hb, hm⟩ := h.consistent.exists_block (r := numRow) (c := numCol) rfl rfl
    rw [hm, ofMatrix_toMatrix, ofBlock, dif_neg hshape, FlatMatrix.ofBlock, ← hb]
    rfl

end StoredMatrix

section Product

variable [Scalar α]

theorem Scalar.sum_range_two (hzero : ∀ x : α, -0 + x = x) (f : ℕ → α) :
    Scalar.sum ((List.range 2).map f) = f 0 + f 1 := by
  change -0 + f 0 + f 1 = _
  rw [hzero]

theorem Scalar.sum_range_three (hzero : ∀ x : α, -0 + x = x) (f : ℕ → α) :
    Scalar.sum ((List.range 3).map f) = f 0 + f 1 + f 2 := by
  change -0 + f 0 + f 1 + f 2 = _
  rw [hzero]

/-- The closed formulas for small products add the same terms in the same order as the general
sum, which only starts from minus zero. -/
theorem StoredMatrix.mul_eq_product (hzero : ∀ x : α, -0 + x = x) (a : StoredMatrix α)
    (b : HeldMatrix α) : a.mul b = (HeldMatrix.stored a).product b := by
  unfold mul
  split
  · next h x h' y =>
    rw [← ofBlock_square h]
    refine congrArg Except.ok (congrArg ofBlock (Block.ext fun i j => ?_))
    rw [Square.product2, Block.entry_ofFn]
    refine Eq.trans ?_ (Block.entry_ofFn (r := 2) (c := 2) _ i j).symm
    refine Eq.trans ?_ (Scalar.sum_range_two hzero _).symm
    rw [← x.getD_elements i 0, ← x.getD_elements i 1, ← y.getD_elements 0 j,
      ← y.getD_elements 1 j]
    rfl
  · next h x h' y =>
    rw [← ofBlock_square h]
    refine congrArg Except.ok (congrArg ofBlock (Block.ext fun i j => ?_))
    rw [Square.product3, Block.entry_ofFn]
    refine Eq.trans ?_ (Block.entry_ofFn (r := 3) (c := 3) _ i j).symm
    refine Eq.trans ?_ (Scalar.sum_range_three hzero _).symm
    rw [← x.getD_elements i 0, ← x.getD_elements i 1, ← x.getD_elements i 2,
      ← y.getD_elements 0 j, ← y.getD_elements 1 j, ← y.getD_elements 2 j]
    rfl
  · rfl

end Product

section Exact

variable {K : Type} [Field K] [LinearOrder K] {m : ℕ}

namespace RowMajor

theorem toMatrix_eq_getElem {elements : Array K} {i : Fin m} {j : Fin n}
    (h : i * n + j < elements.size) :
    toMatrix n elements m n i j = elements[i * n + j] := by
  rw [toMatrix, Array.getD_eq_getD_getElem?, Array.getElem?_eq_getElem h, Option.getD_some]

/-- The last row of an affine matrix is zero except for a trailing one. -/
theorem last_of_isAffine {elements : Array K} (hsize : elements.size = (m + 1) * (n + 1))
    (h : isAffine (m + 1) (n + 1) elements = true) (j : Fin (n + 1)) :
    toMatrix (n + 1) elements (m + 1) (n + 1) (Fin.last m) j = if j = Fin.last n then 1 else 0 := by
  simp only [isAffine, Nat.add_sub_cancel, Bool.and_eq_true] at h
  rcases h with ⟨⟨-, hone⟩, hzero⟩
  have hlt : m * (n + 1) + j < elements.size := by
    rw [hsize, Nat.succ_mul]
    omega
  have hlen : (elements.toList.drop (m * (n + 1))).length = n + 1 := by
    rw [List.length_drop, Array.length_toList, hsize, Nat.succ_mul]
    omega
  rw [toMatrix_eq_getElem hlt]
  by_cases hj : j = Fin.last n
  · subst hj
    rw [if_pos rfl]
    rw [Fin.val_last] at hlt
    rw [List.getLast?_eq_getElem?, hlen, List.getElem?_drop, Array.getElem?_toList,
      Nat.add_sub_cancel, Array.getElem?_eq_getElem hlt] at hone
    exact eq_of_beq hone
  · rw [if_neg hj]
    have hjn : j.val < n := Fin.val_lt_last hj
    rw [List.all_eq_true] at hzero
    have hmem := List.getElem_mem (l := (elements.toList.drop (m * (n + 1))).dropLast) (n := j)
      (by rw [List.length_dropLast, hlen]; omega)
    simpa using hzero _ hmem

/-- A matrix that passes for the identity is the identity. -/
theorem toMatrix_of_isIdentity {elements : Array K} (hsize : elements.size = n * n)
    (h : isIdentity n n elements = true) : toMatrix n elements n n = 1 := by
  simp only [isIdentity, beq_self_eq_true, Bool.true_and, List.all_eq_true] at h
  ext i j
  have hlt : i * n + j < elements.size := hsize ▸ rowMajor_lt i.isLt j.isLt
  have hmem : (elements[i * n + j], i * n + j) ∈ elements.toList.zipIdx := by
    rw [List.mem_zipIdx_iff_getElem?, Array.getElem?_toList]
    exact Array.getElem?_eq_getElem hlt
  have hij := h _ hmem
  simp only [isDiagonal, rowMajor_div j.isLt, rowMajor_mod j.isLt, beq_iff_eq] at hij
  rw [toMatrix_eq_getElem hlt, hij, Matrix.one_apply]
  exact if_congr Fin.ext_iff.symm rfl rfl

end RowMajor

theorem HeldMatrix.product_eq (a b : HeldMatrix K) (h : b.numRow = a.numCol) :
    a.product b = .ok (.ofMatrix
      (a.toMatrix a.numRow a.numCol * b.toMatrix a.numCol b.numCol)) := by
  rw [product, checkRows, if_pos h]
  refine congrArg Except.ok (congrArg (StoredMatrix.ofFn _ _) ?_)
  funext i j
  rw [Exact.sum_eq, Matrix.mul_apply]
  exact Finset.sum_range fun k =>
    a.elements.getD (i * a.numCol + k) 0 * b.elements.getD (k * b.numCol + j) 0

theorem HeldMatrix.product_eq_ofMatrix (a b : HeldMatrix K) {k : ℕ} (har : a.numRow = r)
    (hac : a.numCol = k) (hbr : b.numRow = k) (hbc : b.numCol = c) :
    a.product b = .ok (.ofMatrix (a.toMatrix r k * b.toMatrix k c)) := by
  subst har hac hbc
  exact product_eq a b hbr

/-- The product with a stored matrix is the matrix product, whatever holds the other one. -/
theorem StoredMatrix.mul_held_eq (a : StoredMatrix K) (b : HeldMatrix K) {k : ℕ}
    (har : a.numRow = r) (hac : a.numCol = k) (hbr : b.numRow = k) (hbc : b.numCol = c) :
    a.mul b = .ok (.ofMatrix (a.toMatrix r k * b.toMatrix k c)) := by
  rw [mul_eq_product (fun x => by rw [neg_zero, zero_add])]
  exact HeldMatrix.product_eq_ofMatrix _ _ har hac hbr hbc

/-- The product of stored matrices is the matrix product. -/
theorem StoredMatrix.mul_eq (a b : StoredMatrix K) {k : ℕ} (har : a.numRow = r)
    (hac : a.numCol = k) (hbr : b.numRow = k) (hbc : b.numCol = c) :
    a.mul (.stored b) = .ok (.ofMatrix (a.toMatrix r k * b.toMatrix k c)) :=
  mul_held_eq a (.stored b) har hac hbr hbc

theorem StoredMatrix.ofMatrix_mul {k : ℕ} (a : Matrix (Fin r) (Fin k) K)
    (b : Matrix (Fin k) (Fin c) K) :
    (ofMatrix a).mul (.stored (ofMatrix b)) = .ok (ofMatrix (a * b)) := by
  have hmul := mul_eq (ofMatrix a) (ofMatrix b) (numRow_ofBlock _) (numCol_ofBlock _)
    (numRow_ofBlock _) (numCol_ofBlock _)
  rwa [toMatrix_ofMatrix, toMatrix_ofMatrix] at hmul

/-- Both ways to multiply give the same. -/
def StoredMatrix.IsProduct (a b product : StoredMatrix K) : Prop :=
  a.mul (.stored b) = .ok product ∧ (HeldMatrix.stored a).product (.stored b) = .ok product

theorem StoredMatrix.isProduct_iff {a b product : StoredMatrix K} :
    a.IsProduct b product ↔ a.mul (.stored b) = .ok product := by
  rw [IsProduct, ← mul_eq_product (fun x => by rw [neg_zero, zero_add]), and_self]

@[simp] theorem Block.toMatrix_diagonal :
    (Block.diagonal n n : Square n K).toMatrix = 1 := by
  rw [diagonal, toMatrix_ofFn]
  ext i j
  simp [Matrix.one_apply, Fin.ext_iff]

theorem StoredMatrix.identity_eq (n : ℕ) :
    (identity n : StoredMatrix K) = ofMatrix (1 : Matrix (Fin n) (Fin n) K) := by
  have h : (Block.diagonal n n : Square n K) = Block.ofMatrix 1 :=
    Block.toMatrix_injective (by rw [Block.toMatrix_diagonal, Block.toMatrix_ofMatrix])
  exact congrArg ofBlock h

end Exact

end Georeferencing
