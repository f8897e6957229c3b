import Georeferencing.Proofs.Matrix.Copies
import Georeferencing.Proofs.Matrix.Layout
import Georeferencing.Proofs.Outcome
import Georeferencing.Matrix.Printing

/-! # The alignment of a printed matrix

A column is measured in one pass, and at each cell the widths are those that fit the cells up to
it. What is reached at the end fits every cell, so that nothing is subtracted below zero when the
cells are padded. In a line, each column stands between two edges that are the same for all lines.
-/

namespace Georeferencing

namespace CellText

variable {t : CellText} {k : ℕ}

theorem lastPoint?_concat (t : CellText) (c : Char) :
    lastPoint? (t ++ [c]) = if c = '.' then some t.length else lastPoint? t := by
  have hlast : (t ++ [c])[t.length]? = some c := by simp
  have hrest : ∀ k ∈ (List.range t.length).reverse,
      ((t ++ [c])[k]? == some '.') = (t[k]? == some '.') := by
    intro k hk
    rw [List.mem_reverse, List.mem_range] at hk
    rw [List.getElem?_append_left hk]
  rw [lastPoint?, List.length_append, List.length_singleton, List.range_succ, List.reverse_append,
    List.reverse_singleton, List.singleton_append, List.find?_cons, hlast, List.find?_congr hrest]
  by_cases hc : c = '.'
  · subst hc
    rfl
  · have hother : (some c == some '.') = false := by simpa using hc
    rw [hother, if_neg hc]
    rfl

theorem fractionLength_concat (t : CellText) (c : Char) :
    fractionLength (t ++ [c]) = if c = '.' then 0 else t.fractionLength + 1 := by
  rw [fractionLength, List.reverse_append, List.reverse_singleton, List.singleton_append,
    List.takeWhile_cons]
  by_cases hc : c = '.'
  · simp [hc]
  · simp [hc, fractionLength]

theorem lastPoint?_eq_none_iff : t.lastPoint? = none ↔ t.hasPoint = false := by
  induction t using List.reverseRecOn with
  | nil => exact iff_of_true rfl rfl
  | append_singleton t c ih =>
    rw [lastPoint?_concat, hasPoint, List.contains_append, Bool.or_eq_false_iff]
    by_cases hc : c = '.'
    · subst hc
      constructor
      · rintro ⟨⟩
      · rintro ⟨-, ⟨⟩⟩
    · have hother : [c].contains '.' = false := by
        rw [List.contains_cons, List.contains_nil, Bool.or_false, beq_eq_false_iff_ne]
        exact Ne.symm hc
      rw [if_neg hc, ih]
      exact (and_iff_left hother).symm

/-- The last point is where the head ends. -/
theorem length_of_lastPoint? (h : t.lastPoint? = some k) :
    t.length = k + 1 + t.fractionLength := by
  induction t using List.reverseRecOn with
  | nil => cases h
  | append_singleton t c ih =>
    rw [lastPoint?_concat] at h
    rw [List.length_append, List.length_singleton, fractionLength_concat]
    by_cases hc : c = '.'
    · rw [if_pos hc, Option.some.injEq] at h
      rw [if_pos hc, h]
    · rw [if_neg hc] at h
      rw [if_neg hc, ih h, Nat.add_assoc]

theorem headLength_of_lastPoint? (h : t.lastPoint? = some k) : t.headLength = k + 1 := by
  rw [headLength, length_of_lastPoint? h, Nat.add_sub_cancel]

theorem hasPoint_of_lastPoint? (h : t.lastPoint? = some k) : t.hasPoint = true := by
  by_contra hpoint
  rw [Bool.not_eq_true, ← lastPoint?_eq_none_iff, h] at hpoint
  cases hpoint

end CellText

namespace ColumnScan

variable {cells : List CellText} {t : CellText} {k : ℕ}

/-- The widths that fit all cells of a column. -/
def ofCells (cells : List CellText) : ColumnScan where
  width := (ColumnLayout.ofCells cells).width
  fraction := (ColumnLayout.ofCells cells).fraction
  head := ColumnLayout.maximum
    ((cells.filter CellText.hasPoint).map fun t => t.headLength + ColumnLayout.margin)

theorem maximum_concat (xs : List ℕ) (x : ℕ) :
    ColumnLayout.maximum (xs ++ [x]) = max (ColumnLayout.maximum xs) x := by
  rw [ColumnLayout.maximum, List.foldl_append]
  rfl

/-- A cell with a point: the head and the fraction grow, and with them the width that is compared
with the one of the cells without a point. -/
theorem ofCells_concat_of_lastPoint? (h : t.lastPoint? = some k) :
    let s := ofCells cells
    let head := max s.head (k + 1 + ColumnLayout.margin)
    let fraction := max s.fraction t.fractionLength
    ofCells (cells ++ [t]) = ⟨max s.width (head + fraction), fraction, head⟩ := by
  intro s head fraction
  have hpoint := CellText.hasPoint_of_lastPoint? h
  have hhead := CellText.headLength_of_lastPoint? h
  have hpointed : (cells ++ [t]).filter CellText.hasPoint =
      cells.filter CellText.hasPoint ++ [t] := by
    rw [List.filter_append, List.filter_cons_of_pos hpoint, List.filter_nil]
  have hplain : (cells ++ [t]).filter (!·.hasPoint) = cells.filter (!·.hasPoint) := by
    rw [List.filter_append, List.filter_cons_of_neg (by simp [hpoint]), List.filter_nil,
      List.append_nil]
  simp only [ofCells, ColumnLayout.ofCells, hpointed, hplain, List.map_append, List.map_singleton,
    maximum_concat, hhead, s, head, fraction, ColumnScan.mk.injEq, and_true]
  -- The sum of head and fraction so far is not wider than that of the new ones.
  omega

theorem ofCells_concat_of_none (h : t.lastPoint? = none) :
    let s := ofCells cells
    ofCells (cells ++ [t]) = { s with width := max s.width (t.length + ColumnLayout.margin) } := by
  intro s
  have hpoint := CellText.lastPoint?_eq_none_iff.mp h
  have hpointed : (cells ++ [t]).filter CellText.hasPoint = cells.filter CellText.hasPoint := by
    rw [List.filter_append, List.filter_cons_of_neg (by simp [hpoint]), List.filter_nil,
      List.append_nil]
  have hplain : (cells ++ [t]).filter (!·.hasPoint) = cells.filter (!·.hasPoint) ++ [t] := by
    rw [List.filter_append, List.filter_cons_of_pos (by simp [hpoint]), List.filter_nil]
  simp only [ofCells, ColumnLayout.ofCells, hpointed, hplain, List.map_append, List.map_singleton,
    maximum_concat, s, ColumnScan.mk.injEq, and_true]
  omega

/-- One more cell: the widths fit the cells so far before and after it. -/
theorem add_ofCells (cells : List CellText) (t : CellText) :
    (ofCells cells).add t = .ok (ofCells (cells ++ [t])) := by
  rw [add]
  split
  · next dot h =>
    have hlength := CellText.length_of_lastPoint? h
    rw [Checked.subtract_of_le (by omega), ofCells_concat_of_lastPoint? h, hlength,
      Nat.add_sub_cancel_left]
    rfl
  · next h =>
    rw [ofCells_concat_of_none h]
    rfl

/-- After a pass the widths fit all cells. -/
theorem foldlM_add (cells : List CellText) : cells.foldlM add start = .ok (ofCells cells) := by
  induction cells using List.reverseRecOn with
  | nil => rfl
  | append_singleton cells t ih =>
    rw [List.foldlM_append, ih]
    exact (bind_pure _).trans (add_ofCells cells t)

theorem ofColumn_eq {numRow : ℕ} {read : ℕ → Except StepFault CellText} {cell : ℕ → CellText}
    (h : ∀ j < numRow, read j = .ok (cell j)) :
    ofColumn numRow read = .ok (ofCells ((List.range numRow).map cell)) := by
  rw [← foldlM_add, List.foldlM_map]
  apply foldlM_congr
  intro j hj s
  rw [h j (List.mem_range.mp hj)]
  rfl

/-- A cell of the column is padded without a number below zero. -/
theorem pad_ofCells (h : t ∈ cells) :
    (ofCells cells).pad t = .ok ((ColumnLayout.ofCells cells).pad t) := by
  obtain ⟨blanks, -, -, hwidth, hpointed⟩ := ColumnLayout.pad_spec h
  rw [pad, ColumnLayout.pad]
  split
  · next dot hdot =>
    have hpoint := CellText.hasPoint_of_lastPoint? hdot
    have hlength := CellText.length_of_lastPoint? hdot
    have hhead := CellText.headLength_of_lastPoint? hdot
    have hfit := hpointed hpoint
    rw [ColumnLayout.missingZeros, if_pos hpoint] at hwidth
    rw [hhead] at hfit
    have hfraction : t.length - (dot + 1) = t.fractionLength := by omega
    have hfits : (ofCells cells).fraction ≤ (ofCells cells).width := by
      simp only [ofCells]
      omega
    have hblanks : dot + 1 ≤ (ofCells cells).width - (ofCells cells).fraction := by
      simp only [ofCells]
      omega
    have hzeros : t.length - (dot + 1) ≤ (ofCells cells).fraction := by
      simp only [ofCells]
      omega
    rw [if_pos hpoint, hhead, ← hfraction]
    exact bind_eq_ok.mpr ⟨_, Checked.subtract_of_le hfits, bind_eq_ok.mpr ⟨_,
      Checked.subtract_of_le hblanks, bind_eq_ok.mpr ⟨_, Checked.subtract_of_le (by omega),
        bind_eq_ok.mpr ⟨_, Checked.subtract_of_le hzeros, rfl⟩⟩⟩⟩
  · next hdot =>
    have hpoint := CellText.lastPoint?_eq_none_iff.mp hdot
    rw [hpoint, if_neg Bool.false_ne_true]
    refine bind_eq_ok.mpr ⟨_, Checked.subtract_of_le ?_, rfl⟩
    simp only [ofCells]
    omega

end ColumnScan

/-! ## Lines -/

section Lines

variable {numRow numCol : ℕ} {cell : ℕ → ℕ → CellText} {i j : ℕ}

theorem columnEdge_succ (numRow : ℕ) (cell : ℕ → ℕ → CellText) (i : ℕ) :
    columnEdge numRow cell (i + 1) = columnEdge numRow cell i +
      (ColumnLayout.ofCells (columnCells numRow cell i)).width := by
  rw [columnEdge, List.range_succ, List.map_append, ColumnLayout.total, List.foldl_append,
    columnEdge, Nat.add_assoc]
  rfl

/-- A cell with the blanks before it and the zeros behind it. -/
def paddedCell (numRow : ℕ) (cell : ℕ → ℕ → CellText) (j i : ℕ) : List Char :=
  ColumnLayout.pad (ColumnLayout.ofCells (columnCells numRow cell i)) (cell j i)

theorem length_paddedCell (hj : j < numRow) (i : ℕ) : (paddedCell numRow cell j i).length =
    (ColumnLayout.ofCells (columnCells numRow cell i)).width := by
  obtain ⟨blanks, -, hpad, hwidth, -⟩ := ColumnLayout.pad_spec (mem_columnCells cell hj i)
  rw [paddedCell, hpad, List.length_append, List.length_append, List.length_replicate,
    List.length_replicate, ← Nat.add_assoc, hwidth]

/-- The first columns of a line, with the frame in front of them. -/
theorem length_flatMap_paddedCell (hj : j < numRow) (i : ℕ) :
    ('│' :: (List.range i).flatMap (paddedCell numRow cell j)).length =
      columnEdge numRow cell i := by
  induction i with
  | zero => rfl
  | succ i ih =>
    rw [List.range_succ, List.flatMap_append, List.flatMap_singleton, ← List.cons_append,
      List.length_append, ih, length_paddedCell hj, columnEdge_succ]

theorem length_bodyLine (hj : j < numRow) :
    (bodyLine numRow numCol cell j).length = columnEdge numRow cell numCol + 2 := by
  rw [← length_flatMap_paddedCell hj, bodyLine, List.length_append]
  rfl

/-- What stands before a column ends at its edge. -/
theorem bodyLine_eq_append (hj : j < numRow) (hi : i < numCol) : ∃ before after,
    bodyLine numRow numCol cell j = before ++ (paddedCell numRow cell j i ++ after) ∧
      before.length = columnEdge numRow cell i := by
  obtain ⟨k, rfl⟩ := Nat.exists_eq_add_of_lt hi
  have hrange : List.range (i + k + 1) =
      List.range i ++ i :: (List.range k).map fun l => i + (l + 1) := by
    rw [Nat.add_assoc, List.range_add, List.range_succ_eq_map, List.map_cons, List.map_map]
    rfl
  refine ⟨'│' :: (List.range i).flatMap (paddedCell numRow cell j),
    ((List.range k).map fun l => i + (l + 1)).flatMap (paddedCell numRow cell j) ++ " │".toList,
    ?_, length_flatMap_paddedCell hj i⟩
  change '│' :: (List.range (i + k + 1)).flatMap (paddedCell numRow cell j) ++ " │".toList = _
  rw [hrange, List.flatMap_append, List.flatMap_cons]
  simp only [List.cons_append, List.append_assoc]

theorem zipIdx_map_range {β : Type} (f : ℕ → β) (n : ℕ) :
    ((List.range n).map f).zipIdx = (List.range n).map fun i => (f i, i) := by
  apply List.ext_getElem
  · simp
  · intro i hi hi'
    simp

/-- A row is printed with the widths that fit the columns. -/
theorem printRow_eq {read : ℕ → Except StepFault CellText} (hj : j < numRow)
    (h : ∀ i < numCol, read i = .ok (cell j i)) :
    printRow ((List.range numCol).map fun i => ColumnScan.ofCells (columnCells numRow cell i))
      read = .ok (bodyLine numRow numCol cell j) := by
  refine bind_eq_ok.mpr ⟨(List.range numCol).map (paddedCell numRow cell j), ?_, rfl⟩
  rw [zipIdx_map_range, List.mapM_map]
  apply mapM_eq_ok_map
  intro i hi
  refine bind_eq_ok.mpr ⟨_, h i (List.mem_range.mp hi), ?_⟩
  exact ColumnScan.pad_ofCells (mem_columnCells cell hj i)

/-- How a cell stands in a line between the edges of its column. -/
structure PlacedAt (chars : List Char) (left right point : ℕ) (t : CellText) (offset : ℕ) :
    Prop where
  margin : left + 2 ≤ offset
  blanks : ∀ k, left ≤ k → k < offset → chars[k]? = some ' '
  text : ∀ k < t.length, chars[offset + k]? = t[k]?
  inside : offset + t.length ≤ right
  zeros : ∀ k, offset + t.length ≤ k → k < right → chars[k]? = some '0'
  pointed : ∀ k, t.lastPoint? = some k → offset + k = point
  plain : t.lastPoint? = none → offset + t.length = right

theorem placedAt_append {before after : List Char} {t : CellText} {blanks zeros point : ℕ}
    (hmargin : 2 ≤ blanks)
    (hpointed : ∀ k, t.lastPoint? = some k → before.length + blanks + k = point)
    (hplain : t.lastPoint? = none → zeros = 0) :
    PlacedAt (before ++ (List.replicate blanks ' ' ++ (t ++ List.replicate zeros '0') ++ after))
      before.length (before.length + (blanks + t.length + zeros)) point t
      (before.length + blanks) := by
  constructor
  · omega
  · intro k hleft hoffset
    rw [List.getElem?_append_right hleft, List.append_assoc, List.getElem?_append_left]
    · rw [List.getElem?_replicate_of_lt (by omega)]
    · rw [List.length_replicate]
      omega
  · intro k hk
    have hbefore : (before ++ List.replicate blanks ' ').length = before.length + blanks := by
      rw [List.length_append, List.length_replicate]
    rw [List.append_assoc, List.append_assoc, ← List.append_assoc before,
      List.getElem?_append_right (by omega), List.getElem?_append_left (by omega), hbefore,
      Nat.add_sub_cancel_left]
  · omega
  · intro k hoffset hright
    have hbefore : (before ++ (List.replicate blanks ' ' ++ t)).length =
        before.length + blanks + t.length := by
      rw [List.length_append, List.length_append, List.length_replicate, Nat.add_assoc]
    rw [← List.append_assoc (List.replicate blanks ' '), List.append_assoc _ _ after,
      ← List.append_assoc before, List.getElem?_append_right (by omega),
      List.getElem?_append_left (by rw [List.length_replicate]; omega),
      List.getElem?_replicate_of_lt (by omega)]
  · exact hpointed
  · intro h
    rw [hplain h]
    omega

/-- The place of the last points in a column. -/
def columnPoint (numRow : ℕ) (cell : ℕ → ℕ → CellText) (i : ℕ) : ℕ :=
  columnEdge numRow cell (i + 1) - (ColumnLayout.ofCells (columnCells numRow cell i)).fraction - 1

theorem placedAt_bodyLine (cell : ℕ → ℕ → CellText) (hj : j < numRow) (hi : i < numCol) :
    ∃ offset, PlacedAt (bodyLine numRow numCol cell j) (columnEdge numRow cell i)
      (columnEdge numRow cell (i + 1)) (columnPoint numRow cell i) (cell j i) offset := by
  obtain ⟨before, after, hline, hbefore⟩ := bodyLine_eq_append hj hi
  obtain ⟨blanks, hmargin, hpad, hwidth, hfit⟩ :=
    ColumnLayout.pad_spec (mem_columnCells cell hj i)
  refine ⟨before.length + blanks, ?_⟩
  rw [← hwidth] at hfit
  rw [hline, paddedCell, hpad, columnPoint, columnEdge_succ, ← hbefore, ← hwidth]
  apply placedAt_append hmargin
  · intro k hk
    have hhead := CellText.headLength_of_lastPoint? hk
    have hpoint := hfit (CellText.hasPoint_of_lastPoint? hk)
    omega
  · intro h
    rw [ColumnLayout.missingZeros, CellText.lastPoint?_eq_none_iff.mp h]
    rfl

end Lines

namespace HeldMatrix

variable {α : Type} [Scalar α] {text : α → String} {m : HeldMatrix α} {i j : ℕ}

theorem read_cellAt (text : α → String) (h : m.Complete) (hj : j < m.numRow) (hi : i < m.numCol) :
    Checked.read (m.elements.toList.map fun e => (text e).toList) (j * m.numCol + i) =
      .ok (m.cellAt text j i) := by
  have hlt := h.place_lt hj hi
  apply Checked.read_of_getElem?
  rw [List.getElem?_map, Array.getElem?_toList, Array.getElem?_eq_getElem hlt, Option.map_some,
    cellAt, Array.getD_eq_getD_getElem?, Array.getElem?_eq_getElem hlt, Option.getD_some]

/-- Cell by cell the matrix is printed as it is laid out. -/
theorem print_eq (text : α → String) (h : m.Complete) : m.print text = .ok (m.render text) := by
  let cell := m.cellAt text
  have hscan : ∀ i ∈ List.range m.numCol, ColumnScan.ofColumn m.numRow (fun j =>
      Checked.read (m.elements.toList.map fun e => (text e).toList) (j * m.numCol + i)) =
        .ok (ColumnScan.ofCells (columnCells m.numRow cell i)) := by
    intro i hi
    apply ColumnScan.ofColumn_eq
    intro j hj
    exact read_cellAt text h hj (List.mem_range.mp hi)
  have hbody : ∀ j ∈ List.range m.numRow, printRow
      ((List.range m.numCol).map fun i => ColumnScan.ofCells (columnCells m.numRow cell i))
      (fun i => Checked.read (m.elements.toList.map fun e => (text e).toList)
        (j * m.numCol + i)) = .ok (bodyLine m.numRow m.numCol cell j) := by
    intro j hj
    rw [List.mem_range] at hj
    apply printRow_eq hj
    intro i hi
    exact read_cellAt text h hj hi
  refine bind_eq_ok.mpr ⟨_, mapM_eq_ok_map hscan, bind_eq_ok.mpr ⟨_, mapM_eq_ok_map hbody, ?_⟩⟩
  rw [render_eq, frameLines_eq, columnEdge, List.map_map]
  rfl

/-- A matrix is printed without reading outside of its cells and without subtracting below zero. The
lines are two more than its rows and equally long, and they are those of the text unless a cell
holds a line feed. Each column stands between two edges in all of them, with two blanks or more
before a cell; the last points of its cells are one below the other, and cells without a point end
at the right edge. -/
theorem print_aligned (text : α → String) (m : HeldMatrix α) (hm : m.Consistent) :
    m.print text = .ok (m.render text) ∧
    ∃ (lines : List (List Char)) (edge point : ℕ → ℕ),
      (m.render text).toList = lines.flatMap (· ++ ['\n']) ∧
      lines.length = m.numRow + 2 ∧
      (∀ line ∈ lines, line.length = edge m.numCol + 2) ∧
      ((∀ x ∈ m.elements, '\n' ∉ (text x).toList) → linesOf (m.render text) = lines) ∧
      edge 0 = 1 ∧
      ∀ j i x, m.get j i = .ok x → ∃ line offset, lines[j + 1]? = some line ∧
        PlacedAt line (edge i) (edge (i + 1)) (point i) (text x).toList offset := by
  let cell := m.cellAt text
  refine ⟨print_eq text hm.1, frameLines m.numCol ((List.range m.numRow).map fun j =>
    (List.range m.numCol).map (cell j)), columnEdge m.numRow cell, columnPoint m.numRow cell,
    String.toList_ofList, ?_, ?_, ?_, rfl, ?_⟩
  · rw [frameLines_eq]
    simp
  · intro line hline
    rw [frameLines_eq] at hline
    simp only [List.mem_append, List.mem_cons, List.mem_map, List.mem_range, List.not_mem_nil,
      or_false] at hline
    rcases hline with (rfl | ⟨j, hj, rfl⟩) | rfl
    · simp
    · exact length_bodyLine hj
    · simp
  · intro hnewline
    rw [render_eq]
    apply linesOf_joinLines
    apply newline_notMem_frameLines
    intro j hj i hi
    have hlt := Complete.place_lt hm.1 hj hi
    apply hnewline
    rw [Array.getD_eq_getD_getElem?, Array.getElem?_eq_getElem hlt, Option.getD_some]
    exact Array.getElem_mem hlt
  · intro j i x hx
    rw [hm.2 j i] at hx
    split at hx
    · next hplace =>
      cases hx
      obtain ⟨offset, hplaced⟩ := placedAt_bodyLine cell hplace.1 hplace.2
      refine ⟨_, offset, ?_, hplaced⟩
      rw [frameLines_eq, List.cons_append, List.getElem?_cons_succ, List.getElem?_append_left,
        getElem?_map_range]
      · exact ⟨hplace.1, rfl⟩
      · simp [hplace.1]
    · cases hx

/-- A text without a point that is the widest one of a column. -/
theorem print_aligned_tiny :
    let text := NumberStyle.cell.ofFloat
    let m : HeldMatrix Float := .flat ⟨2, 1, #[1e-20, 6.0]⟩
    m.Consistent ∧ m.print text = .ok (m.render text) ∧
    ∃ (lines : List (List Char)) (edge point : ℕ → ℕ),
      (m.render text).toList = lines.flatMap (· ++ ['\n']) ∧ lines.length = 4 ∧
      (∀ line ∈ lines, line.length = edge 1 + 2) ∧
      (∃ line offset, lines[1]? = some line ∧
        PlacedAt line (edge 0) (edge 1) (point 0) "1e-20".toList offset) ∧
      ∃ line offset, lines[2]? = some line ∧
        PlacedAt line (edge 0) (edge 1) (point 0) "6.0".toList offset := by
  intro text m
  have hm : m.Consistent := ⟨rfl, fun _ _ => rfl⟩
  have hplain : text 1e-20 = "1e-20" := by decide +kernel
  have hpointed : text 6.0 = "6.0" := by decide +kernel
  obtain ⟨hprint, lines, edge, point, hlines, hlength, hwidth, -, -, hplaced⟩ :=
    print_aligned text m hm
  have hfirst := hplaced 0 0 1e-20 rfl
  have hsecond := hplaced 1 0 6.0 rfl
  rw [hplain] at hfirst
  rw [hpointed] at hsecond
  exact ⟨hm, hprint, lines, edge, point, hlines, hlength, hwidth, hfirst, hsecond⟩

end HeldMatrix

end Georeferencing
