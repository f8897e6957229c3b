import Georeferencing.Proofs.Matrix.Grid
import Georeferencing.Proofs.Matrix.Tolerance

/-! # Copies of matrices from outside

A matrix from outside may list fewer or more coefficients than its shape has. A copy then reads
them one by one, so that it always has all of them. A comparison looks at the lists alone and sees
the places that both of them have, and a flat copy takes the list as it is. Both do what they would
do on a copy where the lists fill the shape.
-/

namespace Georeferencing

namespace HeldMatrix

variable {α : Type} {m : HeldMatrix α}

/-- The list of coefficients fills the shape. -/
def Complete (m : HeldMatrix α) : Prop := m.elements.size = m.numRow * m.numCol

instance (m : HeldMatrix α) : Decidable m.Complete := inferInstanceAs (Decidable (_ = _))

theorem Complete.place_lt (h : m.Complete) {row column : ℕ} (hrow : row < m.numRow)
    (hcol : column < m.numCol) : row * m.numCol + column < m.elements.size := by
  rw [h]
  exact rowMajor_lt hrow hcol

variable [Scalar α]

/-- What is listed are the first coefficients that the reader gives, maybe not all of them. -/
structure ListsFirst (m : HeldMatrix α) : Prop where
  size_le : m.elements.size ≤ m.numRow * m.numCol
  get : ∀ (k : ℕ) (e : α), m.elements[k]? = some e → m.get (k / m.numCol) (k % m.numCol) = .ok e

/-- What a copy takes over at a place: the listed coefficient if the list fills the shape, otherwise
what the reader gives. -/
def copied (m : HeldMatrix α) (row column : ℕ) : α :=
  if m.Complete then m.elements.getD (row * m.numCol + column) 0 else m.read row column

theorem copy_of_complete (h : m.Complete) : m.copy = .ofBlock ⟨⟨m.elements, h⟩⟩ := by
  have hsize : m.elements.size = m.numRow * m.numCol := h
  rw [copy, Block.ofElements?, dif_pos hsize]

theorem copy_of_not_complete (h : ¬ m.Complete) :
    m.copy = .ofFn m.numRow m.numCol fun i j => m.read i j := by
  have hsize : ¬ m.elements.size = m.numRow * m.numCol := h
  rw [copy, Block.ofElements?, dif_neg hsize]

theorem numRow_copy (m : HeldMatrix α) : (stored m.copy).numRow = m.numRow := by
  rw [numRow]
  by_cases h : m.Complete
  · rw [copy_of_complete h, StoredMatrix.numRow_ofBlock]
  · rw [copy_of_not_complete h, StoredMatrix.ofFn, StoredMatrix.numRow_ofBlock]

theorem numCol_copy (m : HeldMatrix α) : (stored m.copy).numCol = m.numCol := by
  rw [numCol]
  by_cases h : m.Complete
  · rw [copy_of_complete h, StoredMatrix.numCol_ofBlock]
  · rw [copy_of_not_complete h, StoredMatrix.ofFn, StoredMatrix.numCol_ofBlock]

theorem elements_copy_of_complete (h : m.Complete) : (stored m.copy).elements = m.elements := by
  rw [elements, copy_of_complete h, StoredMatrix.elements_ofBlock]

/-- Stored, a matrix that lists all its coefficients keeps them. -/
theorem toStored_of_complete (h : m.Complete) :
    m.toStored.numRow = m.numRow ∧ m.toStored.numCol = m.numCol ∧
      m.toStored.elements = m.elements := by
  have hcopy : m.copy.numRow = m.numRow ∧ m.copy.numCol = m.numCol ∧
      m.copy.elements = m.elements :=
    ⟨numRow_copy m, numCol_copy m, elements_copy_of_complete h⟩
  cases m with
  | stored m => exact ⟨rfl, rfl, rfl⟩
  | square n b =>
    rw [toStored]
    split
    · exact ⟨rfl, rfl, rfl⟩
    · exact hcopy
  | flat m => exact ⟨rfl, rfl, rfl⟩
  | table m => exact hcopy
  | foreign m => exact hcopy

/-- A copy has all the coefficients that the shape asks for, whatever is listed. -/
theorem elements_copy (m : HeldMatrix α) :
    (stored m.copy).elements = (⟨m.numRow, m.numCol, m.copied⟩ : Grid α).elements := by
  rw [elements]
  by_cases h : m.Complete
  · rw [copy_of_complete h, StoredMatrix.elements_ofBlock, Block.elements_eq_iff]
    intro i j
    rw [copied, if_pos h]
    exact (Block.getD_elements _ i j).symm
  · rw [copy_of_not_complete h, StoredMatrix.ofFn, StoredMatrix.elements_ofBlock,
      Block.elements_eq_iff]
    intro i j
    rw [copied, if_neg h, Block.entry_ofFn]

theorem getElem?_elements_copy {k : ℕ} {e : α} :
    (stored m.copy).elements[k]? = some e ↔ k / m.numCol < m.numRow ∧ k % m.numCol < m.numCol ∧
      m.copied (k / m.numCol) (k % m.numCol) = e := by
  rw [elements_copy]
  constructor
  · intro h
    obtain ⟨hrow, hcol, rfl⟩ := Grid.cell_of_getElem?_elements h
    exact ⟨hrow, hcol, rfl⟩
  · rintro ⟨hrow, hcol, rfl⟩
    have hplace := Grid.getElem?_elements (g := ⟨m.numRow, m.numCol, m.copied⟩) hrow hcol
    rwa [Nat.div_add_mod'] at hplace

/-- A copy takes over what is listed. -/
theorem getElem?_copy_of_listed (hm : m.Complete ∨ m.ListsFirst) {k : ℕ} {e : α}
    (he : m.elements[k]? = some e) : (stored m.copy).elements[k]? = some e := by
  by_cases h : m.Complete
  · rwa [elements_copy_of_complete h]
  · have hfirst := hm.resolve_left h
    have hk : k < m.numRow * m.numCol := by
      have hsize := hfirst.size_le
      have hlisted := (Array.getElem?_eq_some_iff.mp he).1
      omega
    rw [getElem?_elements_copy, copied, if_neg h, read, hfirst.get k e he]
    exact ⟨Nat.div_lt_of_lt_mul (by rwa [Nat.mul_comm]), Nat.mod_lt _ (pos_of_lt_mul hk), rfl⟩

/-! ## Comparisons -/

/-- Two matrices of one shape are close at all places that both of them list. -/
def CloseWhereListed (epsilon : α) (relative : Bool) (a b : HeldMatrix α) : Prop :=
  a.numRow = b.numRow ∧ a.numCol = b.numCol ∧
    ∀ (k : ℕ) (x y : α), a.elements[k]? = some x → b.elements[k]? = some y →
      Scalar.equalWithin epsilon relative x y = true

/-- Two matrices of one shape are close at all places, as copies have them. -/
def CloseWhereCopied (epsilon : α) (relative : Bool) (a b : HeldMatrix α) : Prop :=
  a.numRow = b.numRow ∧ a.numCol = b.numCol ∧
    ∀ row < a.numRow, ∀ column < a.numCol,
      Scalar.equalWithin epsilon relative (a.copied row column) (b.copied row column) = true

/-- A square matrix is close to the identity at all places that it lists. -/
def UnitWhereListed (tolerance : α) (m : HeldMatrix α) : Prop :=
  m.numRow = m.numCol ∧ ∀ (k : ℕ) (e : α), m.elements[k]? = some e →
    Scalar.abs (if k / m.numCol = k % m.numCol then e - 1 else e) ≤ tolerance

/-- A square matrix is close to the identity at all places, as a copy has them. -/
def UnitWhereCopied (tolerance : α) (m : HeldMatrix α) : Prop :=
  m.numRow = m.numCol ∧ ∀ row < m.numRow, ∀ column < m.numCol,
    Scalar.abs (if row = column then m.copied row column - 1 else m.copied row column) ≤ tolerance

variable {a b : HeldMatrix α} {epsilon tolerance : α} {relative : Bool}

/-- A comparison sees the places that both lists have. -/
theorem equalWithin_iff_listed :
    a.equalWithin epsilon relative b = true ↔ CloseWhereListed epsilon relative a b := by
  rw [equalWithin, Bool.and_eq_true, Bool.and_eq_true, beq_iff_eq, beq_iff_eq, and_assoc,
    all_zip_iff, CloseWhereListed]

/-- A comparison of copies sees every place of the shape. -/
theorem equalWithin_copy_iff :
    (stored a.copy).equalWithin epsilon relative (stored b.copy) = true ↔
      CloseWhereCopied epsilon relative a b := by
  rw [equalWithin_iff_listed]
  simp only [CloseWhereListed, CloseWhereCopied, numRow_copy, numCol_copy, getElem?_elements_copy]
  apply and_congr_right
  intro hrow
  apply and_congr_right
  intro hcol
  rw [← hrow, ← hcol]
  constructor
  · intro h row hr column hc
    apply h (row * a.numCol + column)
    · rw [rowMajor_div hc, rowMajor_mod hc]
      exact ⟨hr, hc, rfl⟩
    · rw [rowMajor_div hc, rowMajor_mod hc]
      exact ⟨hr, hc, rfl⟩
  · rintro h k x y ⟨hr, hc, rfl⟩ ⟨-, -, rfl⟩
    exact h _ hr _ hc

theorem isIdentityWithin_iff_listed :
    m.isIdentityWithin tolerance = true ↔ UnitWhereListed tolerance m := by
  rw [isIdentityWithin, RowMajor.isIdentityWithin, Bool.and_eq_true, beq_iff_eq, List.all_eq_true,
    UnitWhereListed]
  apply and_congr_right
  intro hsquare
  simp only [Prod.forall, List.mem_zipIdx_iff_getElem?, Array.getElem?_toList,
    RowMajor.isDiagonal, beq_iff_eq, decide_eq_true_iff]
  exact forall_comm

theorem isIdentityWithin_copy_iff :
    (stored m.copy).isIdentityWithin tolerance = true ↔ UnitWhereCopied tolerance m := by
  rw [isIdentityWithin_iff_listed]
  simp only [UnitWhereListed, UnitWhereCopied, numRow_copy, numCol_copy, getElem?_elements_copy]
  apply and_congr_right
  intro hsquare
  constructor
  · intro h row hr column hc
    have hplace := h (row * m.numCol + column)
    rw [rowMajor_div hc, rowMajor_mod hc] at hplace
    exact hplace _ ⟨hr, hc, rfl⟩
  · rintro h k e ⟨hr, hc, rfl⟩
    exact h _ hr _ hc

/-- A comparison never refuses what it accepts of the copies. What it misses are the places that one
of the lists does not have. -/
theorem equalWithin_copy_iff_and (ha : a.Complete ∨ a.ListsFirst)
    (hb : b.Complete ∨ b.ListsFirst) :
    (stored a.copy).equalWithin epsilon relative (stored b.copy) = true ↔
      a.equalWithin epsilon relative b = true ∧ ∀ row < a.numRow, ∀ column < a.numCol,
        min a.elements.size b.elements.size ≤ row * a.numCol + column →
          Scalar.equalWithin epsilon relative (a.copied row column) (b.copied row column) =
            true := by
  constructor
  · intro h
    constructor
    · rw [equalWithin_iff_listed] at h ⊢
      obtain ⟨hrow, hcol, hclose⟩ := h
      rw [numRow_copy, numRow_copy] at hrow
      rw [numCol_copy, numCol_copy] at hcol
      refine ⟨hrow, hcol, fun k x y hx hy => ?_⟩
      exact hclose k x y (getElem?_copy_of_listed ha hx) (getElem?_copy_of_listed hb hy)
    · rw [equalWithin_copy_iff] at h
      intro row hr column hc _
      exact h.2.2 row hr column hc
  · rintro ⟨hlisted, hrest⟩
    rw [equalWithin_iff_listed] at hlisted
    obtain ⟨hrow, hcol, hclose⟩ := hlisted
    rw [equalWithin_copy_iff]
    refine ⟨hrow, hcol, fun row hr column hc => ?_⟩
    by_cases hk : min a.elements.size b.elements.size ≤ row * a.numCol + column
    · exact hrest row hr column hc hk
    · rw [not_le, lt_min_iff] at hk
      have hx := getElem?_copy_of_listed ha (Array.getElem?_eq_getElem hk.1)
      have hy := getElem?_copy_of_listed hb (Array.getElem?_eq_getElem hk.2)
      rw [getElem?_elements_copy, rowMajor_div hc, rowMajor_mod hc] at hx
      rw [getElem?_elements_copy, ← hcol, rowMajor_div hc, rowMajor_mod hc] at hy
      rw [hx.2.2, hy.2.2]
      exact hclose _ _ _ (Array.getElem?_eq_getElem hk.1) (Array.getElem?_eq_getElem hk.2)

theorem equalWithin_copy_of_complete (ha : a.Complete) (hb : b.Complete) :
    (stored a.copy).equalWithin epsilon relative (stored b.copy) =
      a.equalWithin epsilon relative b := by
  simp only [equalWithin, numRow_copy, numCol_copy, elements_copy_of_complete ha,
    elements_copy_of_complete hb]

theorem isIdentityWithin_copy_of_complete (h : m.Complete) :
    (stored m.copy).isIdentityWithin tolerance = m.isIdentityWithin tolerance := by
  simp only [isIdentityWithin, numRow_copy, numCol_copy, elements_copy_of_complete h]

/-- Every comparison but the strict one has a tolerance. -/
theorem equal_eq_equalWithin [BitPattern α] {mode : Strictness} (h : mode ≠ .strict) :
    ∃ (epsilon : α) (relative : Bool), ∀ a b : HeldMatrix α,
      mode.equal (some a) (some b) = a.equalWithin epsilon relative b := by
  cases mode with
  | strict => exact absurd rfl h
  | byContract => exact ⟨0, false, fun _ _ => rfl⟩
  | ignoreMetadata => exact ⟨0, false, fun _ _ => rfl⟩
  | approximate => exact ⟨Strictness.threshold, true, fun _ _ => rfl⟩
  | debug => exact ⟨Strictness.threshold, true, fun _ _ => rfl⟩

/-- Comparisons do on copies what they do on the matrices themselves where the lists fill the
shapes. Otherwise they see what is listed, and on copies every place. -/
theorem comparisons_of_copies [BitPattern α] (a b : HeldMatrix α) :
    (a.Complete → b.Complete →
      (∀ (epsilon : α) (relative : Bool),
        (stored a.copy).equalWithin epsilon relative (stored b.copy) =
          a.equalWithin epsilon relative b) ∧
      ∀ mode ≠ Strictness.strict,
        mode.equal (some (stored a.copy)) (some (stored b.copy)) =
          mode.equal (some a) (some b)) ∧
    (a.Complete → ∀ tolerance : α,
      (stored a.copy).isIdentityWithin tolerance = a.isIdentityWithin tolerance) ∧
    (∀ (epsilon : α) (relative : Bool),
      (a.equalWithin epsilon relative b = true ↔ CloseWhereListed epsilon relative a b) ∧
      ((stored a.copy).equalWithin epsilon relative (stored b.copy) = true ↔
        CloseWhereCopied epsilon relative a b)) ∧
    (∀ tolerance : α,
      (0 < a.numCol → (a.isIdentityWithin tolerance = true ↔ UnitWhereListed tolerance a)) ∧
      ((stored a.copy).isIdentityWithin tolerance = true ↔ UnitWhereCopied tolerance a)) ∧
    (a.Complete ∨ a.ListsFirst → b.Complete ∨ b.ListsFirst →
      ∀ (epsilon : α) (relative : Bool),
        ((stored a.copy).equalWithin epsilon relative (stored b.copy) = true ↔
          a.equalWithin epsilon relative b = true ∧ ∀ row < a.numRow, ∀ column < a.numCol,
            min a.elements.size b.elements.size ≤ row * a.numCol + column →
              Scalar.equalWithin epsilon relative (a.copied row column) (b.copied row column) =
                true)) := by
  refine ⟨?_, ?_, ?_, ?_, ?_⟩
  · intro ha hb
    constructor
    · intro epsilon relative
      exact equalWithin_copy_of_complete ha hb
    · intro mode hmode
      obtain ⟨epsilon, relative, hequal⟩ := equal_eq_equalWithin (α := α) hmode
      rw [hequal, hequal, equalWithin_copy_of_complete ha hb]
  · intro ha tolerance
    exact isIdentityWithin_copy_of_complete ha
  · intro epsilon relative
    exact ⟨equalWithin_iff_listed, equalWithin_copy_iff⟩
  · intro tolerance
    exact ⟨fun _ => isIdentityWithin_iff_listed, isIdentityWithin_copy_iff⟩
  · intro ha hb epsilon relative
    exact equalWithin_copy_iff_and ha hb

/-- A matrix that lists nothing is reported equal to one that it differs from everywhere. -/
theorem comparisons_of_copies_unlisted :
    let nines : HeldMatrix Float := .square 2 (.of2 9 9 9 9)
    let ones : HeldMatrix Float := .foreign ⟨"Partial", 2, 2, #[], fun row column =>
      if row < 2 ∧ column < 2 then .ok 1 else .error (.indexOutOfBounds row column 2 2)⟩
    nines.Complete ∧ ones.ListsFirst ∧
      Strictness.approximate.equal (some (stored nines.copy)) (some (stored nines.copy)) =
        Strictness.approximate.equal (some nines) (some nines) ∧
      (stored nines.copy).isIdentityWithin 1 = nines.isIdentityWithin 1 ∧
      ones.equalWithin 0 false nines = true ∧ ones.isIdentityWithin 0 = true ∧
      (stored ones.copy).equalWithin 0 false (stored nines.copy) = false ∧
      (stored ones.copy).isIdentityWithin 0 = false := by
  intro nines ones
  have hnines : nines.Complete := rfl
  have hones : ones.ListsFirst := ⟨by decide, fun k e he => by simp [ones, elements] at he⟩
  obtain ⟨hequal, hidentity, -⟩ := comparisons_of_copies nines nines
  obtain ⟨-, -, hlisted, hunit, hfirst⟩ := comparisons_of_copies ones nines
  refine ⟨hnines, hones, (hequal hnines hnines).2 _ (by decide), hidentity hnines 1, ?_, ?_, ?_, ?_⟩
  · apply (hlisted 0 false).1.mpr
    exact ⟨rfl, rfl, fun k x y hx => by simp [ones, elements] at hx⟩
  · apply ((hunit 0).1 (by decide)).mpr
    exact ⟨rfl, fun k e he => by simp [ones, elements] at he⟩
  · rw [← Bool.not_eq_true, hfirst (.inr hones) (.inl hnines)]
    intro h
    have hcorner := h.2 0 (by decide) 0 (by decide) (by decide)
    revert hcorner
    decide +kernel
  · rw [← Bool.not_eq_true, (hunit 0).2]
    intro h
    have hcorner := h.2 0 (by decide) 1 (by decide)
    revert hcorner
    decide +kernel

/-! ## Flat copies -/

theorem represents_copy (m : HeldMatrix α) :
    StoredMatrix.Represents m.copy ⟨m.numRow, m.numCol, m.copied⟩ :=
  StoredMatrix.represents_of_elements (numRow_copy m) (numCol_copy m) (elements_copy m)

theorem represents_toFlat (h : m.Complete) :
    StoredMatrix.Represents (.flat m.toFlat) ⟨m.numRow, m.numCol, m.copied⟩ :=
  .flat ((elements_copy_of_complete h).symm.trans (elements_copy m))

theorem isAffine_iff_copied (h : m.Complete) :
    m.isAffine = true ↔ Grid.IsAffine ⟨m.numRow, m.numCol, m.copied⟩ := by
  have hflat := (represents_toFlat h).isAffine
  exact (congrArg (· = true) hflat).to_iff.trans decide_eq_true_iff

/-- Every place of the shape is in the list if the list is long enough. -/
theorem forall_place_lt_iff {r c size : ℕ} :
    (∀ row < r, ∀ column < c, row * c + column < size) ↔ r * c ≤ size := by
  constructor
  · intro h
    by_contra hsize
    have hlast : r * c - 1 < r * c := by omega
    have hcol := pos_of_lt_mul hlast
    have hplace := h ((r * c - 1) / c) (Nat.div_lt_of_lt_mul (by rwa [Nat.mul_comm c r]))
      ((r * c - 1) % c) (Nat.mod_lt _ hcol)
    rw [Nat.div_add_mod'] at hplace
    omega
  · intro h row hrow column hcol
    exact (rowMajor_lt hrow hcol).trans_le h

/-- A flat copy has the shape of the matrix. It has all its coefficients, and those of a copy, just
where the list fills the shape; then it can not be told from a copy by any requests. -/
theorem toFlat_spec (m : HeldMatrix α) :
    m.toFlat.numRow = m.numRow ∧ m.toFlat.numCol = m.numCol ∧
      (m.toFlat.Consistent ↔ m.Complete) ∧
      (m.toFlat.elements = m.copy.elements ↔ m.Complete) ∧
      ((∀ row < m.numRow, ∀ column < m.numCol,
        row * m.numCol + column < m.toFlat.elements.size) ↔
          m.numRow * m.numCol ≤ m.elements.size) ∧
      (m.Complete → ∀ requests : List (MatrixRequest α),
        (StoredMatrix.operations.run (.flat m.toFlat) requests).1 =
          (StoredMatrix.operations.run m.copy requests).1 ∧
        (StoredMatrix.operations.run (.flat m.toFlat) requests).2.Consistent) := by
  refine ⟨rfl, rfl, Iff.rfl, ?_, forall_place_lt_iff, ?_⟩
  · constructor
    · intro h
      have hsize : (stored m.copy).elements.size = m.numRow * m.numCol := by
        rw [elements_copy, Grid.size_elements]
      exact (congrArg Array.size h).trans hsize
    · intro h
      exact (elements_copy_of_complete h).symm
  · intro h requests
    have hflat := StoredMatrix.operations_refines.run (represents_toFlat h) requests
    have hcopy := StoredMatrix.operations_refines.run (represents_copy m) requests
    exact ⟨hflat.1.trans hcopy.1.symm, hflat.2.consistent⟩

/-- A flat copy of a matrix that lists nothing has no coefficients, while its shape has four. -/
theorem toFlat_spec_unlisted :
    let ones : HeldMatrix ℚ := .foreign ⟨"Partial", 2, 2, #[], fun row column =>
      if row < 2 ∧ column < 2 then .ok 1 else .error (.indexOutOfBounds row column 2 2)⟩
    let listed : HeldMatrix ℚ := .foreign ⟨"Listed", 2, 2, #[1, 2, 3, 4], fun _ _ => .ok 0⟩
    let requests : List (MatrixRequest ℚ) := [.set 0 1 7, .transpose, .get 1 0, .elements]
    ¬ ones.toFlat.Consistent ∧ ones.toFlat.elements ≠ ones.copy.elements ∧
      listed.Complete ∧ listed.toFlat.Consistent ∧
      (StoredMatrix.operations.run (.flat listed.toFlat) requests).1 =
        [.done, .done, .value 7, .values #[1, 3, 7, 4]] := by
  intro ones listed requests
  have hones : ¬ ones.Complete := by decide
  have hlisted : listed.Complete := rfl
  obtain ⟨-, -, hconsistent, helements, -, -⟩ := toFlat_spec ones
  obtain ⟨-, -, hconsistent', -, -, hrun⟩ := toFlat_spec listed
  refine ⟨mt hconsistent.mp hones, mt helements.mp hones, hlisted, hconsistent'.mpr hlisted, ?_⟩
  rw [(hrun hlisted requests).1]
  decide +kernel

end HeldMatrix

end Georeferencing
