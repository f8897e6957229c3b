import Georeferencing.Proofs.Matrix.Algebra
import Georeferencing.Transform.Projective

/-! # Homogeneous coordinates

A projective transform multiplies the homogeneous coordinates of a point by its matrix, and the
image is read off by dividing by the last of them. Affine matrices are no exception: the last
coordinate is one, so that nothing changes when the division is left out. Hence the product of two
matrices is the composition of their transforms wherever the first has a denominator.
-/

namespace Georeferencing

variable {K : Type} [Field K] {n m k : ℕ}

/-- The ordinates of a point, extended by a one. -/
def homogeneous (n : ℕ) (point : List K) : Fin (n + 1) → K :=
  Fin.snoc (fun i : Fin n => point.getD i 0) 1

/-- The point with the given homogeneous coordinates. -/
def ofHomogeneous (v : Fin (n + 1) → K) : List K :=
  List.ofFn fun i : Fin n => v i.castSucc / v (Fin.last n)

@[simp] theorem length_ofHomogeneous (v : Fin (n + 1) → K) : (ofHomogeneous v).length = n :=
  List.length_ofFn

@[simp] theorem homogeneous_last (point : List K) : homogeneous n point (Fin.last n) = 1 :=
  Fin.snoc_last _ _

@[simp] theorem homogeneous_castSucc (point : List K) (i : Fin n) :
    homogeneous n point i.castSucc = point.getD i 0 :=
  Fin.snoc_castSucc _ _ _

theorem ofHomogeneous_homogeneous {point : List K} (h : point.length = n) :
    ofHomogeneous (homogeneous n point) = point := by
  subst h
  apply List.ext_getElem (length_ofHomogeneous _)
  intro i hi hi'
  simp [ofHomogeneous]

theorem homogeneous_ofHomogeneous (v : Fin (n + 1) → K) (h : v (Fin.last n) ≠ 0) :
    homogeneous n (ofHomogeneous v) = (v (Fin.last n))⁻¹ • v := by
  funext i
  cases i using Fin.lastCases with
  | last => simp [h]
  | cast i => simp [ofHomogeneous, div_eq_inv_mul]

theorem ofHomogeneous_smul (a : K) (h : a ≠ 0) (v : Fin (n + 1) → K) :
    ofHomogeneous (a • v) = ofHomogeneous v := by
  rw [ofHomogeneous, ofHomogeneous]
  congr 1
  funext i
  simp only [Pi.smul_apply, smul_eq_mul]
  exact mul_div_mul_left _ _ h

/-- A row of an array that lists rows of length `n`, place by place. -/
theorem getD_row {α : Type} [Zero α] {elements : Array α} {i j : ℕ} (hj : j < n) :
    ((elements.toList.drop (i * n)).take n).getD j 0 = elements.getD (i * n + j) 0 := by
  simp [List.getD_eq_getElem?_getD, hj]

theorem homogeneous_eq_getD {point : List K} (h : point.length = n) (i : Fin (n + 1)) :
    homogeneous n point i = (point ++ [1]).getD i 0 := by
  subst h
  cases i using Fin.lastCases with
  | last => simp
  | cast i => simp

namespace Projective

/-- The matrix of the transform takes points of dimension `n` to points of dimension `m`, and has
all the coefficients that its shape asks for. -/
structure HasShape {α : Type} (t : Projective α) (n m : ℕ) : Prop where
  numRow : t.matrix.numRow = m + 1
  numCol : t.matrix.numCol = n + 1
  consistent : t.matrix.Consistent

theorem HasShape.source {α : Type} {t : Projective α} (h : t.HasShape n m) : t.source = n := by
  rw [Projective.source, h.numCol, Nat.add_sub_cancel]

theorem HasShape.target {α : Type} {t : Projective α} (h : t.HasShape n m) : t.target = m := by
  rw [Projective.target, h.numRow, Nat.add_sub_cancel]

theorem HasShape.size {α : Type} {t : Projective α} (h : t.HasShape n m) :
    t.matrix.elements.size = (m + 1) * (n + 1) := by
  rw [h.consistent, h.numRow, h.numCol]

theorem hasShape_ofMatrix {α : Type} (a : Matrix (Fin (m + 1)) (Fin (n + 1)) α) :
    HasShape ⟨StoredMatrix.ofMatrix a⟩ n m where
  numRow := StoredMatrix.numRow_ofBlock _
  numCol := StoredMatrix.numCol_ofBlock _
  consistent := StoredMatrix.consistent_ofBlock _

section Rows

variable {α : Type} [Scalar α] {t : Projective α} {point : List α}

/-- A row product adds the terms of a matrix product in the same order; only the last of them is
not multiplied by one. -/
theorem rowProduct_eq_sum (hcomm : ∀ x y : α, x * y = y * x) (hone : ∀ x : α, x * 1 = x)
    (h : t.HasShape n m) (hp : point.length = n) (i : Fin (m + 1)) :
    t.rowProduct i point = Scalar.sum ((List.range (n + 1)).map fun k =>
      t.matrix.elements.getD (i * (n + 1) + k) 0 * (point ++ [1]).getD k 0) := by
  have hle : i * (n + 1) + (n + 1) ≤ t.matrix.elements.size := by
    rw [h.size, ← Nat.succ_mul]
    exact Nat.mul_le_mul_right _ i.isLt
  have hterms : point.zipWith (· * ·) ((t.matrix.elements.toList.drop (i * (n + 1))).take (n + 1)) =
      (List.range n).map fun k =>
        t.matrix.elements.getD (i * (n + 1) + k) 0 * (point ++ [1]).getD k 0 := by
    apply List.ext_getElem
    · simp [hp]
      omega
    · intro k hk hk'
      rw [List.length_map, List.length_range] at hk'
      rw [List.getElem_zipWith, List.getElem_map, List.getElem_range, hcomm]
      congr 1
      · rw [List.getElem_eq_getD 0, getD_row (Nat.lt_succ_of_lt hk')]
      · rw [List.getElem_eq_getD 0, List.getD_eq_getElem?_getD, List.getD_eq_getElem?_getD,
          List.getElem?_append_left (hp ▸ hk')]
  rw [rowProduct, h.numCol, h.source, hterms, List.range_succ, List.map_append, Scalar.sum,
    Scalar.sum, List.foldl_append, getD_row (Nat.lt_succ_self n), ← hp]
  simp [hone]

end Rows

variable [LinearOrder K] {t first second : Projective K} {point : List K}

/-- The homogeneous coordinates of the image of a point. -/
def lift (t : Projective K) (n m : ℕ) (point : List K) : Fin (m + 1) → K :=
  (t.matrix.toMatrix (m + 1) (n + 1)).mulVec (homogeneous n point)

/-- The homogeneous coordinate that the others are divided by. -/
def denominator (t : Projective K) (point : List K) : K := t.rowProduct t.target point

theorem rowProduct_eq (h : t.HasShape n m) (hp : point.length = n) (i : Fin (m + 1)) :
    t.rowProduct i point = t.lift n m point i := by
  rw [rowProduct_eq_sum mul_comm mul_one h hp i, Exact.sum_eq, lift, StoredMatrix.toMatrix,
    h.numCol, Matrix.mulVec, dotProduct]
  simp only [homogeneous_eq_getD hp]
  exact (Finset.sum_range fun k =>
    t.matrix.elements.getD (i * (n + 1) + k) 0 * (point ++ [1]).getD k 0)

theorem denominator_eq (h : t.HasShape n m) (hp : point.length = n) :
    t.denominator point = t.lift n m point (Fin.last m) := by
  rw [denominator, h.target]
  exact rowProduct_eq h hp (Fin.last m)

theorem lift_last_of_row (hrow : ∀ j, t.matrix.toMatrix (m + 1) (n + 1) (Fin.last m) j =
    if j = Fin.last n then 1 else 0) : t.lift n m point (Fin.last m) = 1 := by
  rw [lift, Matrix.mulVec, dotProduct]
  simp only [hrow, ite_mul, one_mul, zero_mul, Finset.sum_ite_eq', Finset.mem_univ, if_true,
    homogeneous_last]

theorem lift_last_of_isAffine (h : t.HasShape n m) (haffine : t.isAffine = true) :
    t.lift n m point (Fin.last m) = 1 := by
  rw [isAffine, StoredMatrix.isAffine, h.numRow, h.numCol] at haffine
  apply lift_last_of_row
  rw [StoredMatrix.toMatrix, h.numCol]
  exact RowMajor.last_of_isAffine h.size haffine

/-- The image of a point, whether or not the matrix is affine. -/
theorem image_eq (h : t.HasShape n m) (hp : point.length = n) :
    t.image point = ofHomogeneous (t.lift n m point) := by
  have hrow : (List.range t.target).map (fun row => t.rowProduct row point) =
      List.ofFn fun i : Fin m => t.lift n m point i.castSucc := by
    rw [h.target, ← List.map_coe_finRange_eq_range, List.map_map, List.ofFn_eq_map]
    exact List.map_congr_left fun i _ => rowProduct_eq h hp i.castSucc
  rw [image, hrow]
  split
  · next haffine =>
    simp only [ofHomogeneous, lift_last_of_isAffine h haffine, div_one]
  · have hw := denominator_eq h hp
    rw [denominator] at hw
    simp only [hw, List.map_ofFn]
    rfl

/-- The identity matrix gives every point back. -/
theorem image_of_toMatrix_eq_one (h : t.HasShape n n) (hp : point.length = n)
    (hone : t.matrix.toMatrix (n + 1) (n + 1) = 1) : t.image point = point := by
  rw [image_eq h hp, lift, hone, Matrix.one_mulVec, ofHomogeneous_homogeneous hp]

/-- What passes for the identity has the identity as its matrix. -/
theorem matrix_of_isIdentity (h : t.HasShape n m) (hid : t.isIdentity = true) :
    n = m ∧ t.matrix.toMatrix (n + 1) (n + 1) = 1 := by
  rw [isIdentity, StoredMatrix.isIdentity, h.numRow, h.numCol] at hid
  have hnm : m = n := by
    have := hid
    simp only [RowMajor.isIdentity, Bool.and_eq_true, beq_iff_eq] at this
    omega
  subst hnm
  rw [StoredMatrix.toMatrix, h.numCol]
  exact ⟨rfl, RowMajor.toMatrix_of_isIdentity h.size hid⟩

theorem image_of_isIdentity (h : t.HasShape n m) (hp : point.length = n)
    (hid : t.isIdentity = true) : n = m ∧ t.image point = point := by
  rcases matrix_of_isIdentity h hid with ⟨rfl, hone⟩
  exact ⟨rfl, image_of_toMatrix_eq_one h hp hone⟩

theorem identity_spec (n : ℕ) : (identity n : Projective K).HasShape n n ∧
    ∀ point : List K, point.length = n → (identity n).image point = point := by
  have hshape : (identity n : Projective K).HasShape n n := by
    rw [identity, StoredMatrix.identity_eq]
    exact hasShape_ofMatrix 1
  have hone : (identity n : Projective K).matrix.toMatrix (n + 1) (n + 1) = 1 := by
    rw [identity, StoredMatrix.identity_eq, StoredMatrix.toMatrix_ofMatrix]
  exact ⟨hshape, fun point hp => image_of_toMatrix_eq_one hshape hp hone⟩

theorem lift_image (hfirst : first.HasShape n k) (hp : point.length = n)
    (hw : first.denominator point ≠ 0) :
    second.lift k m (first.image point) = (first.denominator point)⁻¹ •
      (second.matrix.toMatrix (m + 1) (k + 1)).mulVec (first.lift n k point) := by
  rw [denominator_eq hfirst hp] at hw ⊢
  rw [lift, image_eq hfirst hp, homogeneous_ofHomogeneous _ hw, Matrix.mulVec_smul]

theorem hasShape_mul {product : StoredMatrix K} (hfirst : first.HasShape n k)
    (hsecond : second.HasShape k m)
    (hproduct : second.matrix.mul (.stored first.matrix) = .ok product) :
    HasShape ⟨product⟩ n m := by
  rw [StoredMatrix.mul_eq _ _ hsecond.numRow hsecond.numCol hfirst.numRow hfirst.numCol] at hproduct
  cases hproduct
  exact hasShape_ofMatrix _

/-- Where the first transform has a denominator, the product of the matrices maps a point as the
two transforms do in turn, and the denominators multiply. -/
theorem image_mul {product : StoredMatrix K} (hfirst : first.HasShape n k)
    (hsecond : second.HasShape k m)
    (hproduct : second.matrix.mul (.stored first.matrix) = .ok product)
    (hp : point.length = n) (hw : first.denominator point ≠ 0) :
    image ⟨product⟩ point = second.image (first.image point) ∧
      denominator ⟨product⟩ point =
        first.denominator point * second.denominator (first.image point) := by
  have hshape := hasShape_mul hfirst hsecond hproduct
  have hlift : lift ⟨product⟩ n m point =
      (second.matrix.toMatrix (m + 1) (k + 1)).mulVec (first.lift n k point) := by
    rw [StoredMatrix.mul_eq _ _ hsecond.numRow hsecond.numCol hfirst.numRow hfirst.numCol]
      at hproduct
    cases hproduct
    rw [lift, StoredMatrix.toMatrix_ofMatrix, lift, Matrix.mulVec_mulVec]
  have himage : (first.image point).length = k := by
    rw [image_eq hfirst hp, length_ofHomogeneous]
  constructor
  · rw [image_eq hshape hp, hlift, image_eq hsecond himage, lift_image hfirst hp hw,
      ofHomogeneous_smul _ (inv_ne_zero hw)]
  · rw [denominator_eq hshape hp, hlift, denominator_eq hsecond himage, lift_image hfirst hp hw,
      Pi.smul_apply, smul_eq_mul, mul_inv_cancel_left₀ hw]

end Projective

end Georeferencing
