import Georeferencing.Matrix.Copying
import Georeferencing.Proofs.Matrix.Writing

/-! # Faithful copies

A copy has the shape of the matrix, in the storage that this shape asks for, and at every place what
the matrix lists there or, where the list does not fill the shape, what its reader gives. Places are
split into rows and columns by a division, which is carried out only if rows have a length, and puts
together what row-major order takes apart. Hence the coefficients always fill the shape, and a copy
of a copy is the same copy.
-/

namespace Georeferencing

namespace HeldMatrix

variable {α : Type} [Scalar α]

/-- A copy of a matrix: its shape, the storage that this asks for, and its coefficients, those that
are listed if the list fills the shape, and otherwise those that the reader gives. What the reader
refuses becomes something that is not a number. -/
structure CopyOf (m : HeldMatrix α) (x : StoredMatrix α) : Prop where
  numRow : x.numRow = m.numRow
  numCol : x.numCol = m.numCol
  consistent : x.Consistent
  small : ∀ n, (∃ hn b, x = .small n hn b) ↔ m.numRow = n ∧ m.numCol = n ∧ 1 ≤ n ∧ n ≤ 4
  flat : (∃ f, x = .flat f) ↔ ¬ (m.numRow = m.numCol ∧ 1 ≤ m.numRow ∧ m.numRow ≤ 4)
  listed : m.Complete → ∀ row < m.numRow, ∀ column < m.numCol, ∃ e,
    m.elements[row * m.numCol + column]? = some e ∧ x.get row column = .ok e
  given : ¬ m.Complete → ∀ row < m.numRow, ∀ column < m.numCol, ∀ e,
    m.get row column = .ok e → x.get row column = .ok e
  refused : ¬ m.Complete → ∀ row < m.numRow, ∀ column < m.numCol, ∀ error,
    m.get row column = .error error → x.get row column = .ok Scalar.nan

theorem get_copy (m : HeldMatrix α) {row column : ℕ} (hrow : row < m.numRow)
    (hcol : column < m.numCol) : m.copy.get row column = .ok (m.copied row column) := by
  rw [(represents_copy m).get, Grid.get, if_pos ⟨hrow, hcol⟩]

theorem copyOf_copy (m : HeldMatrix α) : m.CopyOf m.copy := by
  have hstorage := (StoredMatrix.canonical_copy m).storage
  have hrow : m.copy.numRow = m.numRow := numRow_copy m
  have hcol : m.copy.numCol = m.numCol := numCol_copy m
  rw [hrow, hcol] at hstorage
  have hconsistent := (StoredMatrix.canonical_copy m).consistent
  refine ⟨hrow, hcol, hconsistent, hstorage.1, hstorage.2, ?_, ?_, ?_⟩
  · intro h row hr column hc
    refine ⟨m.copied row column, ?_, get_copy m hr hc⟩
    have hlt := h.place_lt hr hc
    simp [copied, h, hlt]
  · intro h row hr column hc e he
    rw [get_copy m hr hc, copied, if_neg h, read, he]
  · intro h row hr column hc error herror
    rw [get_copy m hr hc, copied, if_neg h, read, herror]

/-- Where there is a place there is a row length to divide by. -/
theorem splitPlace_of_lt {r c place : ℕ} (h : place < r * c) :
    splitPlace c place = .ok (place / c, place % c) :=
  if_neg (pos_of_lt_mul h).ne'

/-- The places of a shape are read row by row. -/
theorem reread_eq (m : HeldMatrix α) :
    m.reread = .ok (⟨m.numRow, m.numCol, m.read⟩ : Grid α).elements := by
  have hvalues : (List.range (m.numRow * m.numCol)).mapM m.readPlace =
      .ok ((List.range (m.numRow * m.numCol)).map fun place =>
        m.read (place / m.numCol) (place % m.numCol)) := by
    apply mapM_eq_ok_map
    intro place hplace
    rw [readPlace, splitPlace_of_lt (List.mem_range.mp hplace)]
    rfl
  have hrows : (List.range (m.numRow * m.numCol)).map (fun place =>
      m.read (place / m.numCol) (place % m.numCol)) =
        (List.range m.numRow).flatMap fun i => (List.range m.numCol).map (m.read i) := by
    apply eq_flatMap_rows
    · simp
    · intro i j hi hj
      simp [rowMajor_lt hi hj, rowMajor_div hj, rowMajor_mod hj]
  rw [reread, hvalues, hrows]
  rfl

/-- The coefficients that are gathered are those of the copy. -/
theorem gather_eq (m : HeldMatrix α) : m.gather = .ok m.copy.elements := by
  have helements : m.copy.elements = (⟨m.numRow, m.numCol, m.copied⟩ : Grid α).elements :=
    elements_copy m
  by_cases h : m.elements.size = m.numRow * m.numCol
  · have hcopy : m.copy.elements = m.elements := elements_copy_of_complete h
    rw [gather, if_pos h, hcopy]
  · have hread : m.copied = m.read := by
      funext row column
      exact if_neg h
    rw [gather, if_neg h, reread_eq, helements, hread]

/-- In the storage that its shape asks for, a matrix is what its coefficients make. -/
theorem ofElements_of_canonical {x : StoredMatrix α} (hx : x.Canonical) :
    StoredMatrix.ofElements x.numRow x.numCol x.elements = .ok x := by
  have hsize : x.elements.size = x.numRow * x.numCol := hx.consistent
  rw [StoredMatrix.ofElements, Block.ofElements?, dif_pos hsize]
  refine congrArg Except.ok ((StoredMatrix.canonical_ofBlock _).eq_of_elements hx ?_ ?_ ?_)
  · rw [StoredMatrix.numRow_ofBlock]
  · rw [StoredMatrix.numCol_ofBlock]
  · rw [StoredMatrix.elements_ofBlock]

theorem makeCopy_eq (m : HeldMatrix α) : m.makeCopy = .ok (.copied m.copy) := by
  have hrow : m.copy.numRow = m.numRow := numRow_copy m
  have hcol : m.copy.numCol = m.numCol := numCol_copy m
  have hmake := ofElements_of_canonical (StoredMatrix.canonical_copy m)
  rw [hrow, hcol] at hmake
  simp only [makeCopy, gather_eq, hmake, bind, Except.bind, pure, Except.pure]

theorem copy_of_canonical {x : StoredMatrix α} (hx : x.Canonical) : (stored x).copy = x := by
  have hcomplete : (stored x).Complete := hx.consistent
  exact (StoredMatrix.canonical_copy _).eq_of_elements hx (numRow_copy (stored x))
    (numCol_copy (stored x)) (elements_copy_of_complete hcomplete)

/-- Copying is faithful for a matrix of any holder. It never divides by the length of empty rows and
never falls back to zeros, and a copy is copied to itself. Stored and flat matrices and squares of
the sizes that are stored as such are taken as they are, all others are copied. -/
theorem copy_faithful (m : HeldMatrix α) :
    m.CopyOf m.copy ∧
      m.makeCopy = .ok (.copied m.copy) ∧
      (stored m.copy).copy = m.copy ∧
      (∀ x : StoredMatrix α, (stored x).toStored = x) ∧
      (∀ (n : ℕ) (hn : IsSmall n) (b : Square n α), (square n b).toStored = .small n hn b) ∧
      (∀ f : FlatMatrix α, (flat f).toStored = .flat f) ∧
      (∀ t : Table α, (table t).toStored = (table t).copy) ∧
      (∀ f : ForeignMatrix α, (foreign f).toStored = (foreign f).copy) := by
  refine ⟨copyOf_copy m, makeCopy_eq m, copy_of_canonical (StoredMatrix.canonical_copy m),
    fun x => rfl, ?_, fun f => rfl, fun t => rfl, fun f => rfl⟩
  intro n hn b
  exact dif_pos hn

/-- A matrix from outside that lists one coefficient of two is read place by place, and what its
reader refuses is not a number in the copy. -/
theorem copy_faithful_partial :
    let m : HeldMatrix Float := .foreign ⟨"Partial", 1, 2, #[1], fun row column =>
      if column = 0 then .ok 5 else .error (.indexOutOfBounds row column 1 2)⟩
    ¬ m.Complete ∧ m.copy.get 0 0 = .ok 5 ∧ m.copy.get 0 1 = .ok Scalar.nan ∧
      m.makeCopy = .ok (.copied m.copy) ∧ m.toStored = m.copy ∧
      (square 1 (.of1 2) : HeldMatrix Float).toStored = .small 1 (by decide) (.of1 2) := by
  intro m
  have hm : ¬ m.Complete := by decide
  obtain ⟨hcopy, hmake, -, -, hsquare, -, -, hforeign⟩ := copy_faithful m
  exact ⟨hm, hcopy.given hm 0 (by decide) 0 (by decide) 5 rfl,
    hcopy.refused hm 0 (by decide) 1 (by decide) _ rfl, hmake, hforeign _, hsquare 1 _ _⟩

end HeldMatrix

end Georeferencing
