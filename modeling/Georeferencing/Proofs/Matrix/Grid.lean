import Mathlib.Data.List.Basic
import Mathlib.Tactic
import Georeferencing.Proofs.Matrix.Algebra

/-! # Stored matrices as grids

Whatever storage holds a matrix, reading, writing, transposing and testing it is what these are for
a plain function of row and column. The operations that work in place are run one after the other
on both; the replies are the same throughout.
-/

namespace Georeferencing

/-- A plain rectangle of values. -/
structure Grid (α : Type) where
  numRow : ℕ
  numCol : ℕ
  cell : ℕ → ℕ → α

namespace Grid

variable {α : Type}

/-- The rows one after the other. -/
def elements (g : Grid α) : Array α :=
  ((List.range g.numRow).flatMap fun i => (List.range g.numCol).map (g.cell i)).toArray

def get (g : Grid α) (row column : ℕ) : Except MatrixError α :=
  if row < g.numRow ∧ column < g.numCol then .ok (g.cell row column)
  else .error (.indexOutOfBounds row column g.numRow g.numCol)

/-- Replaces one cell and no other. -/
def set (g : Grid α) (row column : ℕ) (value : α) : Except MatrixError (Grid α) :=
  if row < g.numRow ∧ column < g.numCol then
    .ok { g with cell := fun i j => if i = row ∧ j = column then value else g.cell i j }
  else .error (.indexOutOfBounds row column g.numRow g.numCol)

def transpose (g : Grid α) : Grid α := ⟨g.numCol, g.numRow, fun i j => g.cell j i⟩

variable [Scalar α]

/-- Replaces all cells, row by row, by as many values. -/
def refill (g : Grid α) (values : Array α) : Except MatrixError (Grid α) :=
  if values.size = g.numRow * g.numCol then
    .ok { g with cell := fun i j => values.getD (i * g.numCol + j) 0 }
  else .error (.mismatchedLength (g.numRow * g.numCol) values.size)

/-- Square, not empty, and the last row is zero except for a trailing one. -/
def IsAffine (g : Grid α) : Prop :=
  g.numRow = g.numCol ∧ g.numRow ≠ 0 ∧
    ∀ j < g.numCol, (g.cell (g.numRow - 1) j == if j + 1 = g.numCol then 1 else 0) = true

/-- Square, with ones on the diagonal and zeros elsewhere. -/
def IsIdentity (g : Grid α) : Prop :=
  g.numRow = g.numCol ∧
    ∀ i < g.numRow, ∀ j < g.numCol, (g.cell i j == if i = j then 1 else 0) = true

instance (g : Grid α) : Decidable g.IsAffine := inferInstanceAs (Decidable (_ ∧ _))

instance (g : Grid α) : Decidable g.IsIdentity := inferInstanceAs (Decidable (_ ∧ _))

end Grid

/-! ## Operations in place -/

/-- The operations on a matrix that is held by a state of type `σ`. -/
structure MatrixOperations (α σ : Type) where
  shape : σ → ℕ × ℕ
  get : σ → ℕ → ℕ → Except MatrixError α
  set : σ → ℕ → ℕ → α → Except MatrixError σ
  refill : σ → Array α → Except MatrixError σ
  elements : σ → Array α
  transpose : σ → σ
  isAffine : σ → Bool
  isIdentity : σ → Bool

/-- What can be asked of a matrix or done to it. -/
inductive MatrixRequest (α : Type) where
  | shape
  | get (row column : ℕ)
  | set (row column : ℕ) (value : α)
  | refill (values : Array α)
  | elements
  | transpose
  | isAffine
  | isIdentity

inductive MatrixReply (α : Type) where
  | done
  | shape (size : ℕ × ℕ)
  | value (a : α)
  | values (elements : Array α)
  | truth (holds : Bool)
  | failure (e : MatrixError)
deriving DecidableEq

namespace MatrixOperations

variable {α σ τ : Type}

/-- The reply to a change and the state after it: a change that fails leaves everything as it is. -/
def commit (s : σ) : Except MatrixError σ → MatrixReply α × σ
  | .ok t => (.done, t)
  | .error e => (.failure e, s)

def answer (ops : MatrixOperations α σ) (s : σ) : MatrixRequest α → MatrixReply α × σ
  | .shape => (.shape (ops.shape s), s)
  | .get row column =>
    match ops.get s row column with
    | .ok a => (.value a, s)
    | .error e => (.failure e, s)
  | .set row column value => commit s (ops.set s row column value)
  | .refill values => commit s (ops.refill s values)
  | .elements => (.values (ops.elements s), s)
  | .transpose => (.done, ops.transpose s)
  | .isAffine => (.truth (ops.isAffine s), s)
  | .isIdentity => (.truth (ops.isIdentity s), s)

/-- The replies to all requests in turn, and the state after the last. -/
def run (ops : MatrixOperations α σ) : σ → List (MatrixRequest α) → List (MatrixReply α) × σ
  | s, [] => ([], s)
  | s, request :: rest =>
    let (reply, t) := ops.answer s request
    let (replies, u) := ops.run t rest
    (reply :: replies, u)

/-- Two attempts at a change both fail for the same cause or lead to related states. -/
inductive Agree (R : σ → τ → Prop) : Except MatrixError σ → Except MatrixError τ → Prop
  | ok {s : σ} {t : τ} (h : R s t) : Agree R (.ok s) (.ok t)
  | error (e : MatrixError) : Agree R (.error e) (.error e)

/-- Every operation gives the same on related states and keeps them related. -/
structure Refines (R : σ → τ → Prop) (ops : MatrixOperations α σ) (spec : MatrixOperations α τ) :
    Prop where
  shape : ∀ {s t}, R s t → ops.shape s = spec.shape t
  get : ∀ {s t}, R s t → ∀ row column, ops.get s row column = spec.get t row column
  set : ∀ {s t}, R s t → ∀ row column value,
    Agree R (ops.set s row column value) (spec.set t row column value)
  refill : ∀ {s t}, R s t → ∀ values, Agree R (ops.refill s values) (spec.refill t values)
  elements : ∀ {s t}, R s t → ops.elements s = spec.elements t
  transpose : ∀ {s t}, R s t → R (ops.transpose s) (spec.transpose t)
  isAffine : ∀ {s t}, R s t → ops.isAffine s = spec.isAffine t
  isIdentity : ∀ {s t}, R s t → ops.isIdentity s = spec.isIdentity t

variable {R : σ → τ → Prop} {ops : MatrixOperations α σ} {spec : MatrixOperations α τ} {s : σ}
  {t : τ}

theorem Agree.commit {x : Except MatrixError σ} {y : Except MatrixError τ} (h : Agree R x y)
    (hst : R s t) :
    (commit s x : MatrixReply α × σ).1 = (commit t y : MatrixReply α × τ).1 ∧
      R (commit s x : MatrixReply α × σ).2 (commit t y : MatrixReply α × τ).2 := by
  cases h with
  | ok h => exact ⟨rfl, h⟩
  | error e => exact ⟨rfl, hst⟩

theorem Refines.answer (h : Refines R ops spec) (hst : R s t) (request : MatrixRequest α) :
    (ops.answer s request).1 = (spec.answer t request).1 ∧
      R (ops.answer s request).2 (spec.answer t request).2 := by
  cases request with
  | shape => exact ⟨congrArg MatrixReply.shape (h.shape hst), hst⟩
  | get row column =>
    rw [MatrixOperations.answer, MatrixOperations.answer, h.get hst]
    split
    · exact ⟨rfl, hst⟩
    · exact ⟨rfl, hst⟩
  | set row column value => exact (h.set hst row column value).commit hst
  | refill values => exact (h.refill hst values).commit hst
  | elements => exact ⟨congrArg MatrixReply.values (h.elements hst), hst⟩
  | transpose => exact ⟨rfl, h.transpose hst⟩
  | isAffine => exact ⟨congrArg MatrixReply.truth (h.isAffine hst), hst⟩
  | isIdentity => exact ⟨congrArg MatrixReply.truth (h.isIdentity hst), hst⟩

/-- Related states stay related and give the same replies, however long the run. -/
theorem Refines.run (h : Refines R ops spec) (hst : R s t) (requests : List (MatrixRequest α)) :
    (ops.run s requests).1 = (spec.run t requests).1 ∧
      R (ops.run s requests).2 (spec.run t requests).2 := by
  induction requests generalizing s t with
  | nil => exact ⟨rfl, hst⟩
  | cons request rest ih =>
    obtain ⟨hreply, hnext⟩ := h.answer hst request
    obtain ⟨hreplies, hlast⟩ := ih hnext
    exact ⟨congrArg₂ List.cons hreply hreplies, hlast⟩

end MatrixOperations

section

variable {α : Type} [Scalar α]

def StoredMatrix.operations : MatrixOperations α (StoredMatrix α) where
  shape m := (m.numRow, m.numCol)
  get := StoredMatrix.get
  set := StoredMatrix.set
  refill := StoredMatrix.refill
  elements := StoredMatrix.elements
  transpose := StoredMatrix.transpose
  isAffine := StoredMatrix.isAffine
  isIdentity := StoredMatrix.isIdentity

def Grid.operations : MatrixOperations α (Grid α) where
  shape g := (g.numRow, g.numCol)
  get := Grid.get
  set := Grid.set
  refill := Grid.refill
  elements := Grid.elements
  transpose := Grid.transpose
  isAffine g := decide g.IsAffine
  isIdentity g := decide g.IsIdentity

end

/-! ## The cells of an array -/

section Rows

variable {α : Type} {r c : ℕ}

theorem rowMajor_inj {i j k l : ℕ} (hj : j < c) (hl : l < c) :
    i * c + j = k * c + l ↔ i = k ∧ j = l := by
  constructor
  · intro h
    have hdiv := congrArg (· / c) h
    have hmod := congrArg (· % c) h
    simp only [rowMajor_div hj, rowMajor_div hl, rowMajor_mod hj, rowMajor_mod hl] at hdiv hmod
    exact ⟨hdiv, hmod⟩
  · rintro ⟨rfl, rfl⟩
    rfl

/-- A list that has the values of a function at the places of row-major order is its rows one after
the other. -/
theorem eq_flatMap_rows {l : List α} {f : ℕ → ℕ → α} (hlength : l.length = r * c)
    (h : ∀ i j, i < r → j < c → l[i * c + j]? = some (f i j)) :
    l = (List.range r).flatMap fun i => (List.range c).map (f i) := by
  induction r generalizing l with
  | zero => simpa using hlength
  | succ r ih =>
    rw [Nat.succ_mul] at hlength
    have hbefore : l.take (r * c) = (List.range r).flatMap fun i => (List.range c).map (f i) := by
      apply ih
      · simp [hlength]
      · intro i j hi hj
        rw [List.getElem?_take_of_lt (rowMajor_lt hi hj)]
        exact h i j (by omega) hj
    have hlast : l.drop (r * c) = (List.range c).map (f r) := by
      apply List.ext_getElem?
      intro j
      rw [List.getElem?_drop]
      by_cases hj : j < c
      · simp [h r j (by omega) hj, hj]
      · simp [hj, hlength]
    rw [List.range_succ, List.flatMap_append, List.flatMap_singleton, ← hbefore, ← hlast,
      List.take_append_drop]

end Rows

namespace Grid

variable {α : Type} {g : Grid α}

theorem size_elements (g : Grid α) : g.elements.size = g.numRow * g.numCol := by
  simp [elements, List.length_flatMap]

theorem eq_elements {values : Array α} (hsize : values.size = g.numRow * g.numCol)
    (h : ∀ i j, i < g.numRow → j < g.numCol → values[i * g.numCol + j]? = some (g.cell i j)) :
    values = g.elements := by
  rw [elements, ← eq_flatMap_rows (l := values.toList) (by simpa using hsize) (by simpa using h)]

theorem getElem?_elements {i j : ℕ} (hi : i < g.numRow) (hj : j < g.numCol) :
    g.elements[i * g.numCol + j]? = some (g.cell i j) := by
  have htable : (Array.ofFn fun k : Fin (g.numRow * g.numCol) =>
      g.cell (k / g.numCol) (k % g.numCol)) = g.elements := by
    apply eq_elements
    · simp
    · intro i j hi hj
      simp [rowMajor_lt hi hj, rowMajor_div hj, rowMajor_mod hj]
  rw [← htable]
  simp [rowMajor_lt hi hj, rowMajor_div hj, rowMajor_mod hj]

theorem elements_congr {r c : ℕ} {f g : ℕ → ℕ → α} (h : ∀ i < r, ∀ j < c, f i j = g i j) :
    elements ⟨r, c, f⟩ = elements ⟨r, c, g⟩ := by
  apply eq_elements (g := ⟨r, c, g⟩) (size_elements ⟨r, c, f⟩)
  intro i j hi hj
  change _ = some (g i j)
  rw [← h i hi j hj]
  exact getElem?_elements (g := ⟨r, c, f⟩) hi hj

theorem cell_of_getElem?_elements {k : ℕ} {a : α} (h : g.elements[k]? = some a) :
    k / g.numCol < g.numRow ∧ k % g.numCol < g.numCol ∧
      a = g.cell (k / g.numCol) (k % g.numCol) := by
  have hk : k < g.numRow * g.numCol := by
    rw [← g.size_elements]
    exact (Array.getElem?_eq_some_iff.mp h).1
  have hrow : k / g.numCol < g.numRow := Nat.div_lt_of_lt_mul (by rwa [Nat.mul_comm])
  have hcol : k % g.numCol < g.numCol := Nat.mod_lt _ (pos_of_lt_mul hk)
  have hcell := getElem?_elements hrow hcol
  rw [Nat.div_add_mod', h] at hcell
  exact ⟨hrow, hcol, Option.some.inj hcell⟩

theorem setIfInBounds_elements {row column : ℕ} (hrow : row < g.numRow)
    (hcol : column < g.numCol) (value : α) :
    g.elements.setIfInBounds (row * g.numCol + column) value =
      elements ⟨g.numRow, g.numCol,
        fun i j => if i = row ∧ j = column then value else g.cell i j⟩ := by
  apply eq_elements
  · rw [Array.size_setIfInBounds, size_elements]
  · intro i j hi hj
    have hlt : row * g.numCol + column < g.elements.size := by
      rw [size_elements]
      exact rowMajor_lt hrow hcol
    change (g.elements.setIfInBounds _ value)[i * g.numCol + j]? =
      some (if i = row ∧ j = column then value else g.cell i j)
    rw [Array.getElem?_setIfInBounds, getElem?_elements (g := g) hi hj]
    simp only [rowMajor_inj hcol hj, eq_comm (a := row), eq_comm (a := column), if_pos hlt]
    split
    · rfl
    · rfl

theorem lastRow_elements {n : ℕ} {cell : ℕ → ℕ → α} :
    (⟨n + 1, n + 1, cell⟩ : Grid α).elements.toList.drop (n * (n + 1)) =
      (List.range n).map (cell n) ++ [cell n n] := by
  have hbefore : ((List.range n).flatMap fun i => (List.range (n + 1)).map (cell i)).length =
      n * (n + 1) := by
    simp [List.length_flatMap]
  rw [elements, List.toList_toArray, List.range_succ, List.flatMap_append, List.flatMap_singleton,
    ← List.range_succ, List.drop_left' hbefore, List.range_succ, List.map_append,
    List.map_singleton]

variable [Scalar α]

theorem isAffine_elements (g : Grid α) :
    RowMajor.isAffine g.numRow g.numCol g.elements = decide g.IsAffine := by
  obtain ⟨r, c, cell⟩ := g
  rw [Bool.eq_iff_iff, decide_eq_true_iff, IsAffine, RowMajor.isAffine]
  by_cases hsquare : r = c
  · subst hsquare
    cases r with
    | zero => simp
    | succ n =>
      have hzeros : (∀ j < n, (cell n j == if j + 1 = n + 1 then 1 else 0) = true) ↔
          ∀ j < n, (cell n j == 0) = true := by
        apply forall₂_congr
        intro j hj
        rw [if_neg (by omega)]
      simp only [Nat.add_sub_cancel, lastRow_elements, List.getLast?_concat,
        List.dropLast_concat, Nat.forall_lt_succ_right, hzeros]
      simp [and_comm]
  · simp [hsquare]

theorem isIdentity_elements (g : Grid α) :
    RowMajor.isIdentity g.numRow g.numCol g.elements = decide g.IsIdentity := by
  rw [Bool.eq_iff_iff, decide_eq_true_iff, IsIdentity, RowMajor.isIdentity, Bool.and_eq_true,
    beq_iff_eq, List.all_eq_true]
  apply and_congr_right
  intro hsquare
  constructor
  · intro h i hi j hj
    have hmem : (g.cell i j, i * g.numCol + j) ∈ g.elements.toList.zipIdx := by
      rw [List.mem_zipIdx_iff_getElem?, Array.getElem?_toList]
      exact getElem?_elements hi hj
    simpa [RowMajor.isDiagonal, rowMajor_div hj, rowMajor_mod hj] using h _ hmem
  · rintro h ⟨e, k⟩ hmem
    rw [List.mem_zipIdx_iff_getElem?, Array.getElem?_toList] at hmem
    obtain ⟨hrow, hcol, he⟩ := cell_of_getElem?_elements (k := k) (a := e) hmem
    have hcell := h _ hrow _ hcol
    rw [← he] at hcell
    simpa [RowMajor.isDiagonal] using hcell

end Grid

namespace Block

variable {α : Type} {r c : ℕ} {cell : ℕ → ℕ → α}

theorem getElem?_elements (b : Block r c α) (i : Fin r) (j : Fin c) :
    b.elements.toArray[i.val * c + j.val]? = some (b i j) := by
  have h : i.val * c + j.val < r * c := rowMajor_lt i.isLt j.isLt
  simp [entry, h]

/-- The coefficients of a block are those of a grid if they are so place by place. -/
theorem elements_eq_iff {b : Block r c α} :
    b.elements.toArray = (⟨r, c, cell⟩ : Grid α).elements ↔
      ∀ (i : Fin r) (j : Fin c), b i j = cell i j := by
  constructor
  · intro h i j
    have hplace := b.getElem?_elements i j
    rw [h] at hplace
    have hcell := Grid.getElem?_elements (g := ⟨r, c, cell⟩) i.isLt j.isLt
    exact Option.some.inj (hplace.symm.trans hcell)
  · intro h
    apply Grid.eq_elements
    · simp
    · intro i j hi hj
      exact (b.getElem?_elements ⟨i, hi⟩ ⟨j, hj⟩).trans (congrArg some (h ⟨i, hi⟩ ⟨j, hj⟩))

/-- A block as a function of any row and column. -/
theorem exists_cell [Scalar α] (b : Block r c α) :
    ∃ f : ℕ → ℕ → α, (∀ (i : Fin r) (j : Fin c), b i j = f i j) ∧
      b.elements.toArray = (⟨r, c, f⟩ : Grid α).elements := by
  have hcell : ∀ (i : Fin r) (j : Fin c), b i j = b.elements.toArray.getD (i * c + j) 0 :=
    fun i j => (b.getD_elements i j).symm
  exact ⟨fun i j => b.elements.toArray.getD (i * c + j) 0, hcell, elements_eq_iff.mpr hcell⟩

end Block

namespace StoredMatrix

variable {α : Type}

/-- The matrix has the cells of the grid as its coefficients, in either storage. -/
inductive Represents : StoredMatrix α → Grid α → Prop
  | small {n : ℕ} (isSmall : IsSmall n) {b : Square n α} {cell : ℕ → ℕ → α}
      (h : ∀ i j : Fin n, b i j = cell i j) : Represents (small n isSmall b) ⟨n, n, cell⟩
  | flat {r c : ℕ} {elements : Array α} {cell : ℕ → ℕ → α}
      (h : elements = (⟨r, c, cell⟩ : Grid α).elements) :
      Represents (flat ⟨r, c, elements⟩) ⟨r, c, cell⟩

variable {m : StoredMatrix α} {g : Grid α}

theorem Represents.shape (h : Represents m g) : m.numRow = g.numRow ∧ m.numCol = g.numCol := by
  cases h with
  | small hn h => exact ⟨rfl, rfl⟩
  | flat h => exact ⟨rfl, rfl⟩

theorem Represents.elements (h : Represents m g) : m.elements = g.elements := by
  cases h with
  | small hn h => exact Block.elements_eq_iff.mpr h
  | flat h => exact h

theorem represents_of_elements (hrow : m.numRow = g.numRow) (hcol : m.numCol = g.numCol)
    (h : m.elements = g.elements) : Represents m g := by
  obtain ⟨r, c, cell⟩ := g
  cases m with
  | small n hn b =>
    subst hrow hcol
    exact .small hn (Block.elements_eq_iff.mp h)
  | flat f =>
    subst hrow hcol
    exact .flat h

theorem represents_ofFn (r c : ℕ) (f : ℕ → ℕ → α) :
    Represents (ofFn r c fun i j => f i j) ⟨r, c, f⟩ := by
  refine represents_of_elements (numRow_ofBlock _) (numCol_ofBlock _) ?_
  rw [ofFn, elements_ofBlock]
  exact Block.elements_eq_iff.mpr fun i j => Block.entry_ofFn _ i j

theorem Represents.consistent (h : Represents m g) : m.Consistent := by
  rw [Consistent, h.elements, h.shape.1, h.shape.2, Grid.size_elements]

theorem represents_ofBlock {r c : ℕ} {b : Block r c α} {cell : ℕ → ℕ → α}
    (h : ∀ (i : Fin r) (j : Fin c), b i j = cell i j) :
    Represents (StoredMatrix.flat (.ofBlock b)) ⟨r, c, cell⟩ :=
  .flat (Block.elements_eq_iff.mpr h)

open MatrixOperations

theorem Represents.set (h : Represents m g) (row column : ℕ) (value : α) :
    Agree Represents (m.set row column value) (g.set row column value) := by
  cases h with
  | small hn h =>
    rw [StoredMatrix.set, Block.set, Grid.set]
    split
    · apply Agree.ok
      apply Represents.small
      intro i j
      rw [Block.entry_ofFn, h]
    · exact .error _
  | flat h =>
    rw [StoredMatrix.set, FlatMatrix.set, Grid.set]
    split
    · next hplace =>
      apply Agree.ok
      apply Represents.flat
      rw [h]
      exact Grid.setIfInBounds_elements hplace.1 hplace.2 value
    · exact .error _

variable [Scalar α]

theorem Represents.get (h : Represents m g) (row column : ℕ) :
    m.get row column = g.get row column := by
  cases h with
  | small hn h =>
    rw [StoredMatrix.get, Block.get, Grid.get]
    split
    · rw [h]
    · rfl
  | flat h =>
    rw [StoredMatrix.get, FlatMatrix.get, Grid.get]
    split
    · next hplace =>
      simp only
      rw [h, Array.getD_eq_getD_getElem?, Grid.getElem?_elements hplace.1 hplace.2, Option.getD_some]
    · rfl

theorem Represents.refill (h : Represents m g) (values : Array α) :
    Agree Represents (m.refill values) (g.refill values) := by
  cases h with
  | @small n hn b cell h =>
    rw [StoredMatrix.refill, Block.ofElements?, Grid.refill]
    by_cases hsize : values.size = n * n
    · rw [dif_pos hsize, if_pos hsize]
      apply Agree.ok
      apply Represents.small
      intro i j
      exact (Block.getD_elements ⟨⟨values, hsize⟩⟩ i j).symm
    · rw [dif_neg hsize, if_neg hsize]
      exact .error _
  | @flat r c elements cell h =>
    rw [StoredMatrix.refill, FlatMatrix.refill, Grid.refill, h, Grid.size_elements]
    split
    · next hsize =>
      apply Agree.ok
      apply Represents.flat
      apply Grid.eq_elements (g := ⟨r, c, fun i j => values.getD (i * c + j) 0⟩) hsize
      intro i j hi hj
      have hlt : i * c + j < values.size := hsize ▸ rowMajor_lt hi hj
      simp [hlt]
    · exact .error _

theorem Represents.transpose (h : Represents m g) : Represents m.transpose g.transpose := by
  cases h with
  | small hn h =>
    apply Represents.small
    intro i j
    rw [Block.entry_transpose, h]
  | flat h =>
    apply represents_ofBlock
    intro i j
    rw [Block.entry_transpose, FlatMatrix.toBlock, Block.ofArray, Block.entry_ofFn, h,
      Array.getD_eq_getD_getElem?, Grid.getElem?_elements j.isLt i.isLt, Option.getD_some]

theorem Represents.isAffine (h : Represents m g) : m.isAffine = decide g.IsAffine := by
  rw [StoredMatrix.isAffine, h.shape.1, h.shape.2, h.elements, Grid.isAffine_elements]

theorem Represents.isIdentity (h : Represents m g) : m.isIdentity = decide g.IsIdentity := by
  rw [StoredMatrix.isIdentity, h.shape.1, h.shape.2, h.elements, Grid.isIdentity_elements]

/-- The grid that a matrix represents. -/
def toGrid (m : StoredMatrix α) : Grid α :=
  ⟨m.numRow, m.numCol, fun i j => m.elements.getD (i * m.numCol + j) 0⟩

theorem represents_toGrid (h : m.Consistent) : Represents m m.toGrid := by
  cases m with
  | small n hn b =>
    apply Represents.small
    intro i j
    exact (b.getD_elements i j).symm
  | flat m =>
    apply Represents.flat
    apply Grid.eq_elements (g := toGrid (flat m)) h
    intro i j hi hj
    have hlt : i * m.numCol + j < m.elements.size := h ▸ rowMajor_lt hi hj
    simp [toGrid, numCol, StoredMatrix.elements, hlt]

theorem operations_refines :
    Refines Represents (StoredMatrix.operations (α := α)) Grid.operations where
  shape h := congrArg₂ Prod.mk h.shape.1 h.shape.2
  get h := h.get
  set h := h.set
  refill h := h.refill
  elements h := h.elements
  transpose h := h.transpose
  isAffine h := h.isAffine
  isIdentity h := h.isIdentity

/-- A run on a matrix gives the replies of the same run on its grid, and ends in a matrix that
represents the grid at the end. The storage can not be told from any replies. -/
theorem run_grid_spec (m : StoredMatrix α) (hm : m.Consistent)
    (requests : List (MatrixRequest α)) :
    (operations.run m requests).1 = (Grid.operations.run m.toGrid requests).1 ∧
      Represents (operations.run m requests).2 (Grid.operations.run m.toGrid requests).2 ∧
      ∀ other : StoredMatrix α, other.numRow = m.numRow → other.numCol = m.numCol →
        other.elements = m.elements →
          (operations.run other requests).1 = (operations.run m requests).1 := by
  obtain ⟨hreplies, hlast⟩ := operations_refines.run (represents_toGrid hm) requests
  refine ⟨hreplies, hlast, ?_⟩
  intro other hrow hcol helements
  have hother : other.Consistent := by
    rw [Consistent, hrow, hcol, helements, hm]
  have hgrid : other.toGrid = m.toGrid := by
    rw [toGrid, hrow, hcol, helements, toGrid]
  rw [(operations_refines.run (represents_toGrid hother) requests).1, hgrid, hreplies]

/-- A block and a flat array of the same shape, with a write outside the shape and a list that is
too short. -/
theorem run_grid_spec_two :
    let block : StoredMatrix ℚ := .small 2 (by decide) (.of2 1 0 0 1)
    let array : StoredMatrix ℚ := .flat ⟨2, 2, #[1, 0, 0, 1]⟩
    let requests : List (MatrixRequest ℚ) :=
      [.isIdentity, .set 0 1 5, .set 1 2 7, .isAffine, .refill #[3], .transpose, .get 1 0,
        .get 2 0, .isIdentity, .elements]
    block.Consistent ∧
      (operations.run array requests).1 = (operations.run block requests).1 ∧
      (operations.run block requests).1 =
        [.truth true, .done, .failure (.indexOutOfBounds 1 2 2 2), .truth true,
          .failure (.mismatchedLength 4 1), .done, .value 5,
          .failure (.indexOutOfBounds 2 0 2 2), .truth false, .values #[1, 0, 5, 1]] := by
  intro block array requests
  have hm : block.Consistent := rfl
  obtain ⟨hreplies, -, hother⟩ := run_grid_spec block hm requests
  refine ⟨hm, hother array rfl rfl rfl, ?_⟩
  rw [hreplies]
  decide +kernel

end StoredMatrix

end Georeferencing
