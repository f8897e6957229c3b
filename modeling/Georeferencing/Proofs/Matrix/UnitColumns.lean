import Mathlib
import Georeferencing.Matrix.Normalizing
import Georeferencing.Proofs.Matrix.Storage
import Georeferencing.Proofs.Matrix.Strictness
import Georeferencing.Proofs.Matrix.Writing
import Georeferencing.Proofs.Projection.Analysis

/-! # Unit columns

Columns that are divided where they are stored end up divided by the norms that they had in the
beginning: what is done to the columns before one leaves it as it is, and its own norm is read
before it is divided. Over exact numbers all formulas for a norm are the root of the sum of squares,
so that a square has the same unit columns in every storage.
-/

namespace Georeferencing

section Arithmetic

variable {α : Type} [Scalar α]

/-! ## Columns divided in place -/

namespace RowMajor

variable {r c i j : ℕ} {f g : ℕ → ℕ → α}

omit [Scalar α] in
theorem read_elements (f : ℕ → ℕ → α) (hi : i < r) (hj : j < c) :
    Checked.read (⟨r, c, f⟩ : Grid α).elements.toList (i * c + j) = .ok (f i j) := by
  apply Checked.read_of_getElem?
  rw [Array.getElem?_toList]
  exact Grid.getElem?_elements (g := ⟨r, c, f⟩) hi hj

theorem divideAt_elements (divisor : α) (f : ℕ → ℕ → α) (hi : i < r) (hj : j < c) :
    divideAt divisor (⟨r, c, f⟩ : Grid α).elements (i * c + j) =
      .ok (⟨r, c, fun k l => if k = i ∧ l = j then f i j / divisor else f k l⟩ :
        Grid α).elements := by
  rw [divideAt, read_elements f hi hj]
  exact congrArg Except.ok (Grid.setIfInBounds_elements (g := ⟨r, c, f⟩) hi hj _)

/-- The first rows of a column. -/
theorem divideRows_elements (divisor : α) (f : ℕ → ℕ → α) (hj : j < c) {k : ℕ} (hk : k ≤ r) :
    (columnPlaces k c j).foldlM (divideAt divisor) (⟨r, c, f⟩ : Grid α).elements =
      .ok (⟨r, c, fun i l => if l = j ∧ i < k then f i l / divisor else f i l⟩ :
        Grid α).elements := by
  induction k with
  | zero =>
    refine congrArg Except.ok (Grid.elements_congr fun i _ l _ => ?_)
    rw [if_neg (by omega)]
  | succ k ih =>
    rw [columnPlaces, List.range_succ, List.map_append, List.map_singleton, ← columnPlaces,
      foldlM_concat (ih (by omega)), divideAt_elements divisor _ hk hj]
    refine congrArg Except.ok (Grid.elements_congr ?_)
    intro i _ l _
    by_cases hplace : i = k ∧ l = j
    · obtain ⟨rfl, rfl⟩ := hplace
      simp
    · rw [if_neg hplace]
      exact if_congr (by omega) rfl rfl

/-- Dividing a column leaves the others as they are. -/
theorem divideColumn_elements (f : ℕ → ℕ → α) (hj : j < c) (divisor : α) :
    divideColumn r c (⟨r, c, f⟩ : Grid α).elements j divisor =
      .ok (⟨r, c, fun i l => if l = j then f i l / divisor else f i l⟩ : Grid α).elements := by
  refine (divideRows_elements divisor f hj le_rfl).trans
    (congrArg Except.ok (Grid.elements_congr fun i hi l _ => ?_))
  exact if_congr (and_iff_left hi) rfl rfl

/-- A step that divides a column, provided that the column is still what it was. -/
def DividesColumn (r c : ℕ) (f : ℕ → ℕ → α) (d : ℕ → α)
    (step : Array α → ℕ → Except StepFault (Array α)) : Prop :=
  ∀ (g : ℕ → ℕ → α) (j : ℕ), j < c → (∀ i < r, g i j = f i j) →
    step (⟨r, c, g⟩ : Grid α).elements j =
      .ok (⟨r, c, fun i l => if l = j then g i l / d j else g i l⟩ : Grid α).elements

/-- Before column `k` is due, the columns before it are divided and the others are what they
were. -/
theorem DividesColumn.run {d : ℕ → α} {step : Array α → ℕ → Except StepFault (Array α)}
    (h : DividesColumn r c f d step) {k : ℕ} (hk : k ≤ c) :
    (List.range k).foldlM step (⟨r, c, f⟩ : Grid α).elements =
      .ok (⟨r, c, fun i l => if l < k then f i l / d l else f i l⟩ : Grid α).elements := by
  induction k with
  | zero =>
    refine congrArg Except.ok (Grid.elements_congr fun i _ l _ => ?_)
    rw [if_neg (Nat.not_lt_zero l)]
  | succ k ih =>
    rw [List.range_succ, foldlM_concat (ih (by omega)), h _ k hk fun i _ => if_neg (lt_irrefl k)]
    refine congrArg Except.ok (Grid.elements_congr fun i _ l _ => ?_)
    by_cases hl : l = k
    · subst hl
      simp
    · rw [if_neg hl]
      exact if_congr (by omega) rfl rfl

variable [Elementary α]

/-- The Euclidean norm of a column. -/
def norm (r : ℕ) (f : ℕ → ℕ → α) (j : ℕ) : α :=
  Elementary.sqrt (Scalar.sum ((List.range r).map fun i => Scalar.square (f i j)))

theorem readNorm_elements (f : ℕ → ℕ → α) (hj : j < c) :
    readNorm r c (⟨r, c, f⟩ : Grid α).elements j = .ok (norm r f j) := by
  have hread : (columnPlaces r c j).mapM (Checked.read (⟨r, c, f⟩ : Grid α).elements.toList) =
      .ok ((List.range r).map fun i => f i j) := by
    rw [columnPlaces, List.mapM_map]
    exact mapM_eq_ok_map fun i hi => read_elements f (List.mem_range.mp hi) hj
  rw [readNorm, hread]
  change Except.ok (Elementary.sqrt (Scalar.sum (List.map _ (List.map _ _)))) = _
  rw [List.map_map, norm]
  rfl

theorem norm_congr {r : ℕ} {f g : ℕ → ℕ → α} (h : ∀ i < r, g i j = f i j) :
    norm r g j = norm r f j := by
  rw [norm, List.map_congr_left fun i hi => congrArg Scalar.square (h i (List.mem_range.mp hi)),
    norm]

/-- The norm of a column is read before the column is divided, and no column before it has
changed it. -/
theorem normalizeInTurn_elements (r c : ℕ) (f : ℕ → ℕ → α) :
    normalizeInTurn r c (⟨r, c, f⟩ : Grid α).elements =
      .ok (⟨r, c, fun i j => f i j / norm r f j⟩ : Grid α).elements := by
  have hstep : DividesColumn r c f (norm r f) fun current j =>
      readNorm r c current j >>= divideColumn r c current j := by
    intro g j hj h
    refine bind_eq_ok.mpr ⟨_, readNorm_elements g hj, ?_⟩
    rw [norm_congr h]
    exact divideColumn_elements g hj _
  refine (hstep.run le_rfl).trans (congrArg Except.ok (Grid.elements_congr fun i _ j hj => ?_))
  rw [if_pos hj]

end RowMajor

namespace Block

variable {r c : ℕ}

theorem elements_divideColumns {b : Block r c α} {f : ℕ → ℕ → α}
    (h : ∀ (i : Fin r) (j : Fin c), b i j = f i j) {divisor : Fin c → α} {d : ℕ → α}
    (hd : ∀ j : Fin c, divisor j = d j) : (b.divideColumns divisor).elements.toArray =
      (⟨r, c, fun i j => f i j / d j⟩ : Grid α).elements := by
  rw [elements_eq_iff]
  intro i j
  rw [entry_divideColumns, h, hd]

variable [Elementary α]

theorem columnNorm_eq_norm {b : Block r c α} {f : ℕ → ℕ → α}
    (h : ∀ (i : Fin r) (j : Fin c), b i j = f i j) (j : Fin c) :
    b.columnNorm j = RowMajor.norm r f j := by
  rw [columnNorm, column, RowMajor.norm, ← List.map_coe_finRange_eq_range, List.map_map,
    List.map_map]
  simp only [Function.comp_def, h]

theorem normalizeInTurn_eq (b : Block r c α) :
    RowMajor.normalizeInTurn r c b.elements.toArray =
      .ok (b.divideColumns b.columnNorm).elements.toArray := by
  obtain ⟨f, hf, helements⟩ := b.exists_cell
  rw [helements, RowMajor.normalizeInTurn_elements,
    elements_divideColumns hf fun j => columnNorm_eq_norm hf j]

end Block

namespace Square

variable {n : ℕ}

/-- Norms that are known beforehand may be used up one by one. -/
theorem divideTogether_eq (m : Square n α) (norm : Fin n → α) :
    m.divideTogether ((List.finRange n).map norm) =
      .ok (m.divideColumns norm).elements.toArray := by
  obtain ⟨f, hf, helements⟩ := Block.exists_cell m
  let d (j : ℕ) : α := ((List.finRange n).map norm).getD j 0
  have hd : ∀ j : Fin n, norm j = d j := by simp [d]
  have hzip : ((List.finRange n).map norm).zipIdx = (List.range n).map fun j => (d j, j) := by
    apply List.ext_getElem
    · simp
    · intro k hk _
      rw [List.length_zipIdx, List.length_map, List.length_finRange] at hk
      simp [d, hk]
  have hstep : RowMajor.DividesColumn n n f d fun current j =>
      RowMajor.divideColumn n n current j (d j) :=
    fun g j hj _ => RowMajor.divideColumn_elements g hj _
  rw [divideTogether, hzip, List.foldlM_map, helements, Block.elements_divideColumns hf hd]
  refine (hstep.run le_rfl).trans (congrArg Except.ok (Grid.elements_congr fun i _ j hj => ?_))
  rw [if_pos hj]

/-- Whatever the size, the coefficients are divided by the norms of their columns. -/
theorem normalize_eq [Elementary α] (m : Square n α) :
    m.normalize = .ok m.unitColumns.elements.toArray := by
  match n, m with
  | 0, m => exact m.normalizeInTurn_eq
  | 1, m => exact m.divideTogether_eq m.columnNorm
  | 2, m => exact m.divideTogether_eq m.columnNorm
  | 3, m => exact m.divideTogether_eq m.columnNorm
  | n + 4, m => exact m.normalizeInTurn_eq

end Square

namespace StoredMatrix

/-- In place or not, the columns of a matrix are divided by the norms that they have. -/
theorem normalize_eq [Elementary α] {m : StoredMatrix α} (hm : m.Consistent) :
    m.normalize = .ok m.unitColumns := by
  cases m with
  | small n hn b =>
    refine bind_eq_ok.mpr ⟨_, b.normalize_eq, ?_⟩
    rw [refill, Block.ofElements?, dif_pos b.unitColumns.elements.size_toArray]
    rfl
  | flat m =>
    have helements : m.elements = m.toBlock.elements.toArray :=
      congrArg (·.elements.toArray) (Block.ofArray_elements ⟨⟨m.elements, hm⟩⟩).symm
    refine bind_eq_ok.mpr ⟨_, ?_, rfl⟩
    rw [helements]
    exact m.toBlock.normalizeInTurn_eq

theorem shape_unitColumns [Elementary α] (m : StoredMatrix α) :
    m.unitColumns.numRow = m.numRow ∧ m.unitColumns.numCol = m.numCol ∧
      HeldMatrix.storedSize m.unitColumns = HeldMatrix.storedSize m := by
  cases m with
  | small n hn b => exact ⟨rfl, rfl, rfl⟩
  | flat m => exact ⟨rfl, rfl, rfl⟩

theorem consistent_unitColumns [Elementary α] (m : StoredMatrix α) :
    m.unitColumns.Consistent := by
  cases m with
  | small n hn b => exact b.unitColumns.elements.size_toArray
  | flat m => exact FlatMatrix.consistent_ofBlock _

omit [Scalar α] in
/-- Storage, shape and coefficients determine a matrix. -/
theorem eq_of_storedSize {a b : StoredMatrix α}
    (hsize : HeldMatrix.storedSize a = HeldMatrix.storedSize b) (hr : a.numRow = b.numRow)
    (hc : a.numCol = b.numCol) (helements : a.elements = b.elements) : a = b := by
  cases a with
  | small n hn x =>
    cases b with
    | small k hk y =>
      obtain rfl : n = k := hr
      have hxy : x = y := congrArg Block.mk (Vector.toArray_inj.mp helements)
      rw [hxy]
    | flat y => cases hsize
  | flat x =>
    cases b with
    | small k hk y => cases hsize
    | flat y =>
      cases x
      cases y
      cases hr
      cases hc
      cases helements
      rfl

end StoredMatrix

end Arithmetic

/-! ## Norms over exact numbers -/

section Exact

variable {K : Type} [Field K] [LinearOrder K] [Elementary K]

/-- What norms rely on: square roots, and the length of a hypotenuse. -/
structure Elementary.Euclidean (K : Type) [Field K] [LinearOrder K] [Elementary K] : Prop where
  sqrt_nonneg : ∀ x : K, 0 ≤ x → 0 ≤ sqrt x
  sqrt_sq : ∀ x : K, 0 ≤ x → sqrt x ^ 2 = x
  hypot_eq : ∀ x y : K, hypot x y = sqrt (x ^ 2 + y ^ 2)

theorem euclidean_real : Elementary.Euclidean ℝ where
  sqrt_nonneg x _ := Real.sqrt_nonneg x
  sqrt_sq _ hx := Real.sq_sqrt hx
  hypot_eq _ _ := rfl

/-- The length of a vector. -/
def euclideanNorm {r : ℕ} (v : Fin r → K) : K := Elementary.sqrt (∑ i, v i ^ 2)

namespace Elementary.Euclidean

variable [IsStrictOrderedRing K] (h : Euclidean K) {r : ℕ} {v : Fin r → K}

include h

/-- There is one root that is not negative. -/
theorem sqrt_eq {x s : K} (hs : 0 ≤ s) (hx : s ^ 2 = x) : sqrt x = s := by
  have hnonneg : 0 ≤ x := hx ▸ sq_nonneg s
  rw [← sq_eq_sq₀ (h.sqrt_nonneg x hnonneg) hs, h.sqrt_sq x hnonneg, hx]

theorem sqrt_square (x : K) : sqrt (x ^ 2) = |x| :=
  h.sqrt_eq (abs_nonneg x) (sq_abs x)

theorem norm_sq (v : Fin r → K) : euclideanNorm v ^ 2 = ∑ i, v i ^ 2 :=
  h.sqrt_sq _ (Finset.sum_nonneg fun i _ => sq_nonneg (v i))

theorem norm_pos (hv : ∃ i, v i ≠ 0) : 0 < euclideanNorm v := by
  obtain ⟨i, hi⟩ := hv
  have hsum : 0 < ∑ i, v i ^ 2 :=
    Finset.sum_pos' (fun i _ => sq_nonneg (v i)) ⟨i, Finset.mem_univ i, sq_pos_of_ne_zero hi⟩
  have hnonneg : 0 ≤ euclideanNorm v := h.sqrt_nonneg _ hsum.le
  rw [← h.norm_sq v] at hsum
  exact hnonneg.lt_of_ne' (sq_pos_iff.mp hsum)

/-- A vector over its length is a unit vector. -/
theorem sum_sq_div_norm (hv : ∃ i, v i ≠ 0) : ∑ i, (v i / euclideanNorm v) ^ 2 = 1 := by
  have hpos := h.norm_pos hv
  calc ∑ i, (v i / euclideanNorm v) ^ 2 = (∑ i, v i ^ 2) / euclideanNorm v ^ 2 := by
        simp only [div_pow, Finset.sum_div]
    _ = 1 := by rw [h.norm_sq v, div_self]; rw [← h.norm_sq v]; positivity

theorem norm_eq_one (hv : ∑ i, v i ^ 2 = 1) : euclideanNorm v = 1 := by
  rw [euclideanNorm, hv]
  exact h.sqrt_eq zero_le_one (one_pow 2)

end Elementary.Euclidean

variable {r c n : ℕ}

theorem Block.columnNorm_eq (b : Block r c K) (j : Fin c) :
    b.columnNorm j = euclideanNorm fun i => b i j := by
  rw [columnNorm, column, Exact.sum_eq, List.map_map, euclideanNorm, Fin.sum_univ_def]
  simp only [Function.comp_def, Scalar.square, sq]

section Ordered

variable [IsStrictOrderedRing K] (h : Elementary.Euclidean K)

include h

/-- The formulas of all sizes are the same norm. -/
theorem Square.columnNorm_eq (m : Square n K) (j : Fin n) :
    m.columnNorm j = euclideanNorm fun i => m i j := by
  match n, m, j with
  | 1, m, j =>
    rw [columnNorm, Exact.abs_eq, euclideanNorm, Fin.sum_univ_one, h.sqrt_square]
  | 2, m, j => rw [columnNorm, h.hypot_eq, euclideanNorm, Fin.sum_univ_two]
  | 3, m, j =>
    rw [columnNorm, euclideanNorm, Fin.sum_univ_three]
    simp only [sq]
  | n + 4, m, j => exact Block.columnNorm_eq m j

namespace StoredMatrix

/-- In every storage the columns are divided by their lengths. -/
theorem toMatrix_unitColumns {m : StoredMatrix K} (hr : m.numRow = r) (hc : m.numCol = c)
    (i : Fin r) (j : Fin c) : m.unitColumns.toMatrix r c i j =
      m.toMatrix r c i j / euclideanNorm fun k => m.toMatrix r c k j := by
  cases m with
  | small n hn b =>
    obtain rfl : n = r := hr
    obtain rfl : n = c := hc
    rw [unitColumns, toMatrix_small, toMatrix_small, Square.unitColumns, Block.toMatrix_apply,
      Block.entry_divideColumns, b.columnNorm_eq h]
    rfl
  | flat m =>
    obtain ⟨numRow, numCol, elements⟩ := m
    obtain rfl : numRow = r := hr
    obtain rfl : numCol = c := hc
    have hblock : (Block.ofArray numRow numCol elements).toMatrix =
        (flat ⟨numRow, numCol, elements⟩).toMatrix numRow numCol := Block.toMatrix_ofArray elements
    rw [← hblock, unitColumns, toMatrix]
    change RowMajor.toMatrix numCol (Block.elements _).toArray numRow numCol i j = _
    rw [Block.rowMajor_toMatrix, Block.toMatrix_apply, Block.entry_divideColumns,
      Block.columnNorm_eq]
    rfl

/-- The coefficients of the unit columns do not depend on the storage. -/
theorem elements_unitColumns_congr {a b : StoredMatrix K} (hr : a.numRow = b.numRow)
    (hc : a.numCol = b.numCol) (helements : a.elements = b.elements) :
    a.unitColumns.elements = b.unitColumns.elements := by
  have hsame : a.toMatrix b.numRow b.numCol = b.toMatrix b.numRow b.numCol := by
    rw [toMatrix, toMatrix, hc, helements]
  obtain ⟨har, hac, -⟩ := shape_unitColumns a
  obtain ⟨hbr, hbc, -⟩ := shape_unitColumns b
  apply elements_eq_of_toMatrix_eq (consistent_unitColumns a) (consistent_unitColumns b)
    (har.trans hr) (hac.trans hc) hbr hbc
  ext i j
  rw [toMatrix_unitColumns h hr hc, toMatrix_unitColumns h rfl rfl, hsame]

/-- A matrix of unit columns is its own. -/
theorem unitColumns_of_unit {m : StoredMatrix K} (hm : m.Consistent) (hr : m.numRow = r)
    (hc : m.numCol = c) (hunit : ∀ j, ∑ i, m.toMatrix r c i j ^ 2 = 1) : m.unitColumns = m := by
  obtain ⟨hrow, hcol, hsize⟩ := shape_unitColumns m
  apply eq_of_storedSize hsize hrow hcol
  apply elements_eq_of_toMatrix_eq (consistent_unitColumns m) hm (hrow.trans hr) (hcol.trans hc)
    hr hc
  ext i j
  rw [toMatrix_unitColumns h hr hc, h.norm_eq_one (hunit j), div_one]

/-- A matrix whose columns are not zero is divided in place into one of unit columns, each of which
is a positive multiple of what it was. Shape and storage stay, the coefficients do not depend on the
storage, and a second time nothing changes. -/
theorem unitColumns_spec (m : StoredMatrix K) (hm : m.Consistent) (hr : m.numRow = r)
    (hc : m.numCol = c) (hcolumns : ∀ j, ∃ i, m.toMatrix r c i j ≠ 0) :
    ∃ x, m.normalize = .ok x ∧ x = m.unitColumns ∧
      x.numRow = r ∧ x.numCol = c ∧ x.Consistent ∧
      HeldMatrix.storedSize x = HeldMatrix.storedSize m ∧
      (∀ j, ∑ i, x.toMatrix r c i j ^ 2 = 1) ∧
      (∀ j, ∃ factor, 0 < factor ∧ ∀ i, m.toMatrix r c i j = x.toMatrix r c i j * factor) ∧
      (∀ other : StoredMatrix K, other.numRow = r → other.numCol = c →
        other.elements = m.elements → ∃ y, other.normalize = .ok y ∧ y.elements = x.elements) ∧
      x.normalize = .ok x := by
  obtain ⟨hrow, hcol, hsize⟩ := shape_unitColumns m
  rw [hr] at hrow
  rw [hc] at hcol
  have hx := consistent_unitColumns m
  have hunit : ∀ j, ∑ i, m.unitColumns.toMatrix r c i j ^ 2 = 1 := by
    intro j
    simp only [toMatrix_unitColumns h hr hc]
    exact h.sum_sq_div_norm (hcolumns j)
  refine ⟨m.unitColumns, normalize_eq hm, rfl, hrow, hcol, hx, hsize, hunit, ?_, ?_, ?_⟩
  · intro j
    have hpos := h.norm_pos (hcolumns j)
    refine ⟨_, hpos, fun i => ?_⟩
    rw [toMatrix_unitColumns h hr hc, div_mul_cancel₀ _ hpos.ne']
  · intro other hor hoc helements
    have hother : other.Consistent := by
      rw [Consistent, helements, hor, hoc, ← hr, ← hc]
      exact hm
    exact ⟨_, normalize_eq hother,
      elements_unitColumns_congr h (hor.trans hr.symm) (hoc.trans hc.symm) helements⟩
  · rw [normalize_eq hx, unitColumns_of_unit h hx hrow hcol hunit]

end StoredMatrix

end Ordered

end Exact

/-- A column of three and four has length five, in a block as in a flat array. -/
theorem StoredMatrix.unitColumns_spec_five :
    let m : StoredMatrix ℝ := .small 2 (by decide) (.of2 3 0 4 2)
    let array : StoredMatrix ℝ := .flat ⟨2, 2, #[3, 0, 4, 2]⟩
    m.Consistent ∧ (∀ j, ∃ i, m.toMatrix 2 2 i j ≠ 0) ∧
      ∃ x, m.normalize = .ok x ∧ x.toMatrix 2 2 0 0 = 3 / 5 ∧ x.toMatrix 2 2 1 0 = 4 / 5 ∧
        x.normalize = .ok x ∧ ∃ y, array.normalize = .ok y ∧ y.elements = x.elements := by
  intro m array
  have hcolumns : ∀ j, ∃ i, m.toMatrix 2 2 i j ≠ 0 := by
    have hfirst : m.toMatrix 2 2 0 0 = 3 := rfl
    have hsecond : m.toMatrix 2 2 1 1 = 2 := rfl
    rw [Fin.forall_fin_two]
    exact ⟨⟨0, by rw [hfirst]; norm_num⟩, ⟨1, by rw [hsecond]; norm_num⟩⟩
  obtain ⟨x, hx, -, -, -, -, -, hunit, hfactor, hother, htwice⟩ :=
    unitColumns_spec euclidean_real (r := 2) (c := 2) m rfl rfl rfl hcolumns
  obtain ⟨factor, hpos, hcolumn⟩ := hfactor 0
  have hupper : 3 = x.toMatrix 2 2 0 0 * factor := hcolumn 0
  have hlower : 4 = x.toMatrix 2 2 1 0 * factor := hcolumn 1
  have hlength : x.toMatrix 2 2 0 0 ^ 2 + x.toMatrix 2 2 1 0 ^ 2 = 1 := by
    rw [← hunit 0, Fin.sum_univ_two]
  have hfive : factor = 5 := by
    have hsquare : factor ^ 2 = 5 ^ 2 := by
      calc factor ^ 2 = (x.toMatrix 2 2 0 0 ^ 2 + x.toMatrix 2 2 1 0 ^ 2) * factor ^ 2 := by
            rw [hlength, one_mul]
        _ = (x.toMatrix 2 2 0 0 * factor) ^ 2 + (x.toMatrix 2 2 1 0 * factor) ^ 2 := by ring
        _ = 5 ^ 2 := by rw [← hupper, ← hlower]; norm_num
    exact (sq_eq_sq₀ hpos.le (by norm_num)).mp hsquare
  subst hfive
  exact ⟨rfl, hcolumns, x, hx, by linarith, by linarith, htwice, hother array rfl rfl rfl⟩

end Georeferencing
