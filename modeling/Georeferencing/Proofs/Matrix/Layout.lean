import Georeferencing.Decimal.Text
import Georeferencing.Matrix.Display
import Georeferencing.Proofs.Decimal.Numeral
import Georeferencing.Scalar.Double

/-! # Reading a printed matrix

The frame is taken off, lines and blanks are split on, and every word is read as a number. Blanks
before a cell are lost on the way, zeros behind it are not: these belong to the fraction of a plain
number, but to the exponent of a number that has one.
-/

namespace Georeferencing

theorem getElem?_map_range {β : Type} {f : ℕ → β} {n k : ℕ} {b : β} :
    ((List.range n).map f)[k]? = some b ↔ k < n ∧ f k = b := by
  rw [List.getElem?_map, Option.map_eq_some_iff]
  constructor
  · rintro ⟨l, hl, rfl⟩
    obtain ⟨hk, rfl⟩ := List.getElem?_eq_some_iff.mp hl
    rw [List.length_range] at hk
    exact ⟨hk, by rw [List.getElem_range]⟩
  · rintro ⟨hk, rfl⟩
    exact ⟨k, List.getElem?_range hk, rfl⟩

section Words

/-- The lines of a text, each of which ends with a line feed. -/
def linesOf (text : String) : List (List Char) := (text.toList.splitOn '\n').dropLast

/-- The pieces between blanks, but for empty ones. -/
def wordsOf (line : List Char) : List (List Char) := (line.splitOn ' ').filter (· ≠ [])

def isFrame (c : Char) : Bool := "┌┐└┘│".toList.contains c

/-- The line without the characters of the frame. -/
def stripFrame (line : List Char) : List Char := line.filter (!isFrame ·)

theorem splitOn_lines {lines : List (List Char)} (h : ∀ line ∈ lines, '\n' ∉ line) :
    (lines.flatMap (· ++ ['\n'])).splitOn '\n' = lines ++ [[]] := by
  induction lines with
  | nil => rfl
  | cons line rest ih =>
    rw [List.forall_mem_cons] at h
    rw [List.flatMap_cons, List.append_assoc, List.singleton_append,
      List.splitOn_append_cons_self_of_not_mem h.1, ih h.2, List.cons_append]

theorem linesOf_joinLines {lines : List (List Char)} (h : ∀ line ∈ lines, '\n' ∉ line) :
    linesOf (joinLines lines) = lines := by
  rw [linesOf, joinLines, String.toList_ofList, splitOn_lines h, List.dropLast_concat]

theorem wordsOf_blank (t : List Char) : wordsOf (' ' :: t) = wordsOf t := by
  have hsplit := List.splitOn_append_cons_self_of_not_mem (a := ' ') List.not_mem_nil t
  rw [List.nil_append] at hsplit
  rw [wordsOf, hsplit, List.filter_cons_of_neg (by simp), wordsOf]

theorem wordsOf_blanks (k : ℕ) (t : List Char) :
    wordsOf (List.replicate k ' ' ++ t) = wordsOf t := by
  induction k with
  | zero => rfl
  | succ k ih => rw [List.replicate_succ, List.cons_append, wordsOf_blank, ih]

theorem wordsOf_word {word : List Char} (hne : word ≠ []) (hblank : ' ' ∉ word) (t : List Char) :
    wordsOf (word ++ ' ' :: t) = word :: wordsOf t := by
  rw [wordsOf, List.splitOn_append_cons_self_of_not_mem hblank,
    List.filter_cons_of_pos (by simpa using hne), wordsOf]

/-- Words with blanks before each of them and one more at the end. -/
theorem wordsOf_cells {ι : Type} {blanks : ι → ℕ} {word : ι → List Char} (is : List ι)
    (hblanks : ∀ i ∈ is, 0 < blanks i) (hword : ∀ i ∈ is, word i ≠ [] ∧ ' ' ∉ word i) :
    wordsOf ((is.flatMap fun i => List.replicate (blanks i) ' ' ++ word i) ++ [' ']) =
      is.map word := by
  induction is with
  | nil => rfl
  | cons i rest ih =>
    rw [List.forall_mem_cons] at hblanks hword
    obtain ⟨t, ht⟩ : ∃ t, (rest.flatMap fun i => List.replicate (blanks i) ' ' ++ word i) ++ [' '] =
        ' ' :: t := by
      cases rest with
      | nil => exact ⟨[], rfl⟩
      | cons j rest =>
        obtain ⟨k, hk⟩ := Nat.exists_eq_succ_of_ne_zero (hblanks.2 j (List.mem_cons_self ..)).ne'
        rw [List.flatMap_cons, hk, List.replicate_succ]
        exact ⟨_, rfl⟩
    have hrest := ih hblanks.2 hword.2
    rw [ht, wordsOf_blank] at hrest
    rw [List.flatMap_cons, List.append_assoc, List.append_assoc, wordsOf_blanks, ht,
      wordsOf_word hword.1.1 hword.1.2, hrest, List.map_cons]

end Words

namespace ColumnLayout

variable {cells : List CellText} {t : CellText} {xs : List ℕ} {n : ℕ}

theorem lt_foldl_max_iff {start : ℕ} :
    n < xs.foldl max start ↔ n < start ∨ ∃ x ∈ xs, n < x := by
  induction xs generalizing start with
  | nil => simp
  | cons x xs ih =>
    rw [List.foldl_cons, ih, lt_max_iff, List.exists_mem_cons_iff, or_assoc]

theorem lt_maximum_iff : n < maximum xs ↔ ∃ x ∈ xs, n < x := by
  rw [maximum, lt_foldl_max_iff]
  exact or_iff_right (Nat.not_lt_zero n)

theorem le_maximum {x : ℕ} (h : x ∈ xs) : x ≤ maximum xs := by
  by_contra hlt
  exact lt_irrefl _ (lt_maximum_iff.mpr ⟨x, h, not_le.mp hlt⟩)

/-- The zeros that a cell needs to reach the end of its column. -/
def missingZeros (cells : List CellText) (t : CellText) : ℕ :=
  if t.hasPoint then (ofCells cells).fraction - t.fractionLength else 0

theorem headLength_add_fractionLength (t : CellText) :
    t.headLength + t.fractionLength = t.length := by
  have hle : t.fractionLength ≤ t.reverse.length := (List.takeWhile_prefix _).length_le
  rw [List.length_reverse] at hle
  exact Nat.sub_add_cancel hle

/-- A cell is brought to its width by blanks before it and zeros behind it, so that the points of
a column are as far from its end as the longest fraction needs. -/
theorem pad_spec (h : t ∈ cells) : ∃ blanks, margin ≤ blanks ∧
    pad (ofCells cells) t =
      List.replicate blanks ' ' ++ (t ++ List.replicate (missingZeros cells t) '0') ∧
    blanks + t.length + missingZeros cells t = (ofCells cells).width ∧
    (t.hasPoint = true →
      blanks + t.headLength + (ofCells cells).fraction = (ofCells cells).width) := by
  rw [pad, missingZeros]
  split
  · next hpoint =>
    have hmem : t ∈ cells.filter CellText.hasPoint := List.mem_filter.mpr ⟨h, hpoint⟩
    have hhead := le_maximum (List.mem_map_of_mem (f := fun t => t.headLength + margin) hmem)
    have hfraction := le_maximum (List.mem_map_of_mem (f := CellText.fractionLength) hmem)
    have hlength := headLength_add_fractionLength t
    refine ⟨_, ?_, List.append_assoc _ _ _, ?_, fun _ => ?_⟩
    all_goals
      simp only [ofCells] at hhead hfraction ⊢
      omega
  · next hpoint =>
    have hmem : t ∈ cells.filter (!·.hasPoint) :=
      List.mem_filter.mpr ⟨h, by rw [Bool.eq_false_iff.mpr hpoint]; rfl⟩
    have htext := le_maximum (List.mem_map_of_mem (f := fun t => t.length + margin) hmem)
    refine ⟨(ofCells cells).width - t.length, ?_, ?_, ?_, fun hp => absurd hp hpoint⟩
    · simp only [ofCells] at htext ⊢
      omega
    · rw [List.replicate_zero, List.append_nil]
      rfl
    · simp only [ofCells] at htext ⊢
      omega

theorem missingZeros_pos_iff : 0 < missingZeros cells t ↔
    t.hasPoint = true ∧ ∃ u ∈ cells, u.hasPoint = true ∧ t.fractionLength < u.fractionLength := by
  rw [missingZeros]
  split
  · next hpoint =>
    rw [Nat.sub_pos_iff_lt]
    change t.fractionLength < maximum _ ↔ _
    rw [lt_maximum_iff]
    simp [hpoint, and_assoc]
  · next hpoint => simp [hpoint]

end ColumnLayout

section Rows

variable {numRow numCol : ℕ} {cell : ℕ → ℕ → CellText}

/-- The cells of a column from the first row to the last. -/
def columnCells (numRow : ℕ) (cell : ℕ → ℕ → CellText) (i : ℕ) : List CellText :=
  (List.range numRow).map fun j => cell j i

theorem mem_columnCells (cell : ℕ → ℕ → CellText) {j : ℕ} (hj : j < numRow) (i : ℕ) :
    cell j i ∈ columnCells numRow cell i :=
  List.mem_map_of_mem (f := fun j => cell j i) (List.mem_range.mpr hj)

/-- What is printed of a cell, but for the blanks. -/
def printedCell (numRow : ℕ) (cell : ℕ → ℕ → CellText) (j i : ℕ) : List Char :=
  cell j i ++ List.replicate (ColumnLayout.missingZeros (columnCells numRow cell i) (cell j i)) '0'

def bodyLine (numRow numCol : ℕ) (cell : ℕ → ℕ → CellText) (j : ℕ) : List Char :=
  '│' :: ((List.range numCol).flatMap fun i =>
    ColumnLayout.pad (ColumnLayout.ofCells (columnCells numRow cell i)) (cell j i)) ++ " │".toList

/-- The place in a line where column `i` begins, the frame being in front of the first one. -/
def columnEdge (numRow : ℕ) (cell : ℕ → ℕ → CellText) (i : ℕ) : ℕ :=
  1 + ColumnLayout.total ((List.range i).map fun k =>
    (ColumnLayout.ofCells (columnCells numRow cell k)).width)

/-- The frame, and one line for each row. -/
theorem frameLines_eq (numRow numCol : ℕ) (cell : ℕ → ℕ → CellText) :
    frameLines numCol ((List.range numRow).map fun j => (List.range numCol).map (cell j)) =
      ('┌' :: List.replicate (columnEdge numRow cell numCol) ' ' ++ ['┐']) ::
        (List.range numRow).map (bodyLine numRow numCol cell) ++
          ['└' :: List.replicate (columnEdge numRow cell numCol) ' ' ++ ['┘']] := by
  let layout (i : ℕ) := ColumnLayout.ofCells (columnCells numRow cell i)
  have hlayouts : ((List.range numCol).map fun i => ColumnLayout.ofCells
      (((List.range numRow).map fun j => (List.range numCol).map (cell j)).map
        fun row => row.getD i [])) = (List.range numCol).map layout := by
    apply List.map_congr_left
    intro i hi
    rw [List.mem_range] at hi
    simp [layout, columnCells, Function.comp_def, hi]
  have hbody : (((List.range numRow).map fun j => (List.range numCol).map (cell j)).map fun row =>
      '│' :: (((List.range numCol).map layout).zipWith ColumnLayout.pad row).flatten ++
        " │".toList) = (List.range numRow).map (bodyLine numRow numCol cell) := by
    rw [List.map_map]
    apply List.map_congr_left
    intro j _
    rw [Function.comp_apply, List.zipWith_map, List.zipWith_self]
    rfl
  have hinner : ColumnLayout.total (((List.range numCol).map layout).map ColumnLayout.width) + 1 =
      columnEdge numRow cell numCol := by
    rw [columnEdge, List.map_map, Nat.add_comm]
    rfl
  rw [frameLines, hlayouts, hbody, hinner]
  rfl

theorem notMem_of_isMark {t : List Char} (h : ∀ c ∈ t, Numeral.isMark c = true) {c : Char}
    (hc : Numeral.isMark c = false) : c ∉ t := by
  intro hmem
  rw [h c hmem] at hc
  cases hc

theorem isFrame_of_isMark {c : Char} (h : Numeral.isMark c = true) : isFrame c = false := by
  have hnone : "┌┐└┘│".toList.all (!Numeral.isMark ·) = true := rfl
  by_contra hframe
  rw [Bool.not_eq_false, isFrame, List.contains_iff_mem] at hframe
  have hc := List.all_eq_true.mp hnone c hframe
  rw [h] at hc
  cases hc

theorem isMark_printedCell {j i : ℕ} (h : IsPrinted (cell j i)) :
    ∀ c ∈ printedCell numRow cell j i, Numeral.isMark c = true := by
  intro c hc
  rcases List.mem_append.mp hc with hc | hc
  · exact h.isMark c hc
  · rw [List.eq_of_mem_replicate hc]
    rfl

/-- A row of cells with blanks before each of them. -/
theorem bodyLine_eq (numCol : ℕ) (cell : ℕ → ℕ → CellText) {j : ℕ} (hj : j < numRow) :
    ∃ blanks : ℕ → ℕ, (∀ i ∈ List.range numCol, 0 < blanks i) ∧
      bodyLine numRow numCol cell j = '│' :: (((List.range numCol).flatMap fun i =>
        List.replicate (blanks i) ' ' ++ printedCell numRow cell j i) ++ [' ', '│']) := by
  have hpad : ∀ i ∈ List.range numCol, ∃ blanks, 0 < blanks ∧
      ColumnLayout.pad (ColumnLayout.ofCells (columnCells numRow cell i)) (cell j i) =
        List.replicate blanks ' ' ++ printedCell numRow cell j i := by
    intro i _
    obtain ⟨blanks, hmargin, hpad, -⟩ := ColumnLayout.pad_spec (mem_columnCells cell hj i)
    exact ⟨blanks, Nat.two_pos.trans_le hmargin, hpad⟩
  choose! blanks hblanks hpad using hpad
  refine ⟨blanks, hblanks, ?_⟩
  rw [bodyLine, List.flatMap_def, List.flatMap_def, List.map_congr_left hpad]
  rfl

theorem newline_notMem_bodyLine {j : ℕ} (hj : j < numRow) (h : ∀ i < numCol, '\n' ∉ cell j i) :
    '\n' ∉ bodyLine numRow numCol cell j := by
  obtain ⟨blanks, -, hline⟩ := bodyLine_eq numCol cell hj
  rw [hline, List.mem_cons, List.mem_append, List.mem_flatMap]
  rintro (hc | ⟨i, hi, hc⟩ | hc)
  · exact absurd hc (by decide)
  · rw [printedCell, List.mem_append, List.mem_append] at hc
    rcases hc with hc | hc | hc
    · exact absurd (List.eq_of_mem_replicate hc) (by decide)
    · exact h i (List.mem_range.mp hi) hc
    · exact absurd (List.eq_of_mem_replicate hc) (by decide)
  · exact absurd hc (by decide)

/-- The lines of the frame have no line feeds but those of the cells. -/
theorem newline_notMem_frameLines (h : ∀ j < numRow, ∀ i < numCol, '\n' ∉ cell j i) :
    ∀ line ∈ frameLines numCol ((List.range numRow).map fun j => (List.range numCol).map (cell j)),
      '\n' ∉ line := by
  intro line hline
  rw [frameLines_eq] at hline
  simp only [List.mem_append, List.mem_cons, List.mem_map, List.mem_range, List.not_mem_nil,
    or_false] at hline
  rcases hline with (rfl | ⟨j, hj, rfl⟩) | rfl
  · simp
  · exact newline_notMem_bodyLine hj (h j hj)
  · simp

section Printed

variable (hcell : ∀ j < numRow, ∀ i < numCol, IsPrinted (cell j i)) {j : ℕ} (hj : j < numRow)

include hcell hj

/-- Blanks and the characters of numbers. -/
theorem mem_cells {blanks : ℕ → ℕ} {c : Char} (hc : c ∈ (List.range numCol).flatMap fun i =>
    List.replicate (blanks i) ' ' ++ printedCell numRow cell j i) :
    c = ' ' ∨ Numeral.isMark c = true := by
  obtain ⟨i, hi, hc⟩ := List.mem_flatMap.mp hc
  rcases List.mem_append.mp hc with hc | hc
  · exact Or.inl (List.eq_of_mem_replicate hc)
  · exact Or.inr (isMark_printedCell (hcell j hj i (List.mem_range.mp hi)) c hc)

/-- The words of a row are its cells with the zeros behind them. -/
theorem wordsOf_bodyLine :
    wordsOf (stripFrame (bodyLine numRow numCol cell j)) =
      (List.range numCol).map (printedCell numRow cell j) := by
  obtain ⟨blanks, hblanks, hline⟩ := bodyLine_eq numCol cell hj
  have hstrip : stripFrame (bodyLine numRow numCol cell j) =
      ((List.range numCol).flatMap fun i =>
        List.replicate (blanks i) ' ' ++ printedCell numRow cell j i) ++ [' '] := by
    rw [hline, stripFrame, List.filter_cons_of_neg (by decide), List.filter_append,
      List.filter_eq_self.mpr]
    · rfl
    · intro c hc
      rcases mem_cells hcell hj hc with rfl | hc
      · rfl
      · rw [isFrame_of_isMark hc]
        rfl
  rw [hstrip]
  apply wordsOf_cells _ hblanks
  intro i hi
  have hprinted := hcell j hj i (List.mem_range.mp hi)
  constructor
  · rw [printedCell, ne_eq, List.append_eq_nil_iff, not_and_or]
    exact Or.inl hprinted.ne_nil
  · exact notMem_of_isMark (isMark_printedCell hprinted) rfl

end Printed

end Rows

/-- An exponent form with a point in a column where a cell has more characters behind its point:
the zeros that fill the column get behind the exponent. -/
def CellText.Displaced (column : List CellText) (t : CellText) : Prop :=
  t.hasPoint = true ∧ 'e' ∈ t ∧
    ∃ u ∈ column, u.hasPoint = true ∧ t.fractionLength < u.fractionLength

instance (column : List CellText) (t : CellText) : Decidable (t.Displaced column) :=
  inferInstanceAs (Decidable (_ ∧ _ ∧ _))

/-- Unless a cell is displaced, the zeros behind it do not change the number. -/
theorem ofText?_fill (column : List CellText) {t : CellText} (h : IsPrinted t) :
    (¬ t.Displaced column → Reading.ofText? (t ++ List.replicate
      (ColumnLayout.missingZeros column t) '0') = Reading.ofText? t) ∧
    (t.Displaced column → Reading.ofText? (t ++ List.replicate
      (ColumnLayout.missingZeros column t) '0') ≠ Reading.ofText? t) := by
  rcases Nat.eq_zero_or_pos (ColumnLayout.missingZeros column t) with hzero | hpos
  · rw [hzero, List.replicate_zero, List.append_nil]
    constructor
    · exact fun _ => rfl
    · rintro ⟨hpoint, -, hlonger⟩
      exact absurd hzero (ColumnLayout.missingZeros_pos_iff.mpr ⟨hpoint, hlonger⟩).ne'
  · obtain ⟨hpoint, hlonger⟩ := ColumnLayout.missingZeros_pos_iff.mp hpos
    have hmem : '.' ∈ t := List.contains_iff_mem.mp hpoint
    constructor
    · intro hdisplaced
      apply h.ofText?_append_zeros hmem
      intro hmark
      exact hdisplaced ⟨hpoint, hmark, hlonger⟩
    · rintro ⟨-, hmark, -⟩
      exact h.ofText?_append_zeros_ne hmem hmark hpos

namespace HeldMatrix

variable {α : Type} [Scalar α]

/-- The text of the coefficient in row `j` and column `i`. -/
def cellAt (text : α → String) (m : HeldMatrix α) (j i : ℕ) : CellText :=
  (text (m.elements.getD (j * m.numCol + i) 0)).toList

theorem render_eq (text : α → String) (m : HeldMatrix α) :
    m.render text = joinLines (frameLines m.numCol ((List.range m.numRow).map fun j =>
      (List.range m.numCol).map (m.cellAt text j))) := rfl

/-- The lines of a printed matrix, which are as many as its rows between those of the frame. -/
theorem linesOf_render {text : α → String} {m : HeldMatrix α}
    (hcell : ∀ j < m.numRow, ∀ i < m.numCol, IsPrinted (m.cellAt text j i)) : ∃ width,
    linesOf (m.render text) =
      ('┌' :: List.replicate width ' ' ++ ['┐']) ::
        (List.range m.numRow).map (bodyLine m.numRow m.numCol (m.cellAt text)) ++
          ['└' :: List.replicate width ' ' ++ ['┘']] := by
  use columnEdge m.numRow (m.cellAt text) m.numCol
  rw [← frameLines_eq, render_eq]
  apply linesOf_joinLines
  exact newline_notMem_frameLines fun j hj i hi => notMem_of_isMark (hcell j hj i hi).isMark rfl

/-- The text stands for the value, as it is read to the nearest one; what is not a number is read
as such. -/
def ReadsAs (nearest : Reading → α) (t : List Char) (x : α) : Prop :=
  ∃ r, Reading.ofText? t = some r ∧
    (nearest r = x ∨ Scalar.isNaN (nearest r) = true ∧ Scalar.isNaN x = true)

/-- The text of a value is that of a number, and it reads back. -/
structure PrintsBack (text : α → String) (nearest : Reading → α) (x : α) : Prop where
  printed : IsPrinted (text x).toList
  back : ReadsAs nearest (text x).toList x

/-- A matrix is printed as one line for each row between two lines of the frame. The words of a
line are as many as the matrix has columns, and each stands for its coefficient, unless the text of
the coefficient is an exponent form with a point and a cell of its column has more characters behind
the point: then the word stands for another number. -/
theorem render_reads_back (text : α → String) (nearest : Reading → α) (m : HeldMatrix α)
    (hm : m.Consistent) (hprinter : ∀ x ∈ m.elements, PrintsBack text nearest x) :
    ∃ width body, linesOf (m.render text) =
        ('┌' :: List.replicate width ' ' ++ ['┐']) :: body ++
          ['└' :: List.replicate width ' ' ++ ['┘']] ∧
      body.length = m.numRow ∧
      ∀ (j : ℕ) line, body[j]? = some line →
        (wordsOf (stripFrame line)).length = m.numCol ∧
        ∀ (i : ℕ) word x, (wordsOf (stripFrame line))[i]? = some word → m.get j i = .ok x →
          let column := columnCells m.numRow (m.cellAt text) i
          (¬ CellText.Displaced column (text x).toList → ReadsAs nearest word x) ∧
          (CellText.Displaced column (text x).toList →
            Reading.ofText? word ≠ Reading.ofText? (text x).toList) := by
  have hback : ∀ j < m.numRow, ∀ i < m.numCol,
      PrintsBack text nearest (m.elements.getD (j * m.numCol + i) 0) := by
    intro j hj i hi
    have hplace : j * m.numCol + i < m.elements.size := by
      rw [hm.1]
      exact rowMajor_lt hj hi
    apply hprinter
    simp [Array.getD_eq_getD_getElem?, hplace]
  have hcell : ∀ j < m.numRow, ∀ i < m.numCol, IsPrinted (m.cellAt text j i) :=
    fun j hj i hi => (hback j hj i hi).printed
  obtain ⟨width, hlines⟩ := linesOf_render hcell
  refine ⟨width, _, hlines, by simp, ?_⟩
  intro j line hline
  obtain ⟨hj, rfl⟩ := getElem?_map_range.mp hline
  rw [wordsOf_bodyLine hcell hj]
  constructor
  · simp
  intro i word x hword hx
  obtain ⟨hi, rfl⟩ := getElem?_map_range.mp hword
  rw [hm.2 j i, if_pos ⟨hj, hi⟩] at hx
  cases hx
  obtain ⟨hplain, hdisplaced⟩ := ofText?_fill (columnCells m.numRow (m.cellAt text) i)
    (hcell j hj i hi)
  refine ⟨?_, hdisplaced⟩
  intro h
  obtain ⟨r, hr, hnearest⟩ := (hback j hj i hi).back
  exact ⟨r, (hplain h).trans hr, hnearest⟩

/-- The double that a reading is rounded to, as long as numerator and denominator are doubles. -/
def quotient : Reading → Float
  | .nan => 0.0 / 0.0
  | .infinite negative => if negative then -1.0 / 0.0 else 1.0 / 0.0
  | .finite negative q =>
    if negative then -(Float.ofInt q.num / Float.ofNat q.den)
    else Float.ofInt q.num / Float.ofNat q.den

/-- A small number that is printed beside one with more digits behind the point. -/
theorem render_reads_back_tiny :
    let text := NumberStyle.cell.ofFloat
    let m : HeldMatrix Float := .flat ⟨2, 1, #[1.5e-7, 0.12345]⟩
    let line := "│  1.5e-70 │".toList
    let word := "1.5e-70".toList
    m.Consistent ∧ (∀ x ∈ m.elements, PrintsBack text quotient x) ∧
      (linesOf (m.render text))[1]? = some line ∧ wordsOf (stripFrame line) = [word] ∧
        Reading.ofText? word ≠ Reading.ofText? (text 1.5e-7).toList := by
  intro text m line word
  have htiny : text 1.5e-7 = "1.5e-7" := by decide +kernel
  have hplain : text 0.12345 = "0.12345" := by decide +kernel
  have hm : m.Consistent := ⟨rfl, fun _ _ => rfl⟩
  have hprinter : ∀ x ∈ m.elements, PrintsBack text quotient x := by
    intro x hx
    have hcases : x = 1.5e-7 ∨ x = 0.12345 := by simpa [m, elements] using hx
    rcases hcases with rfl | rfl
    · constructor
      · rw [htiny]
        apply IsPrinted.exponent ⟨false, ['1'], ['5'], some (true, ['7'])⟩
        · refine ⟨by decide, List.all_eq_true.mp rfl, ?_⟩
          rintro _ _ ⟨⟩
          decide
        · decide +kernel
        · decide
      · rw [htiny]
        refine ⟨.finite false (3 / 20000000), ?_, Or.inl ?_⟩
        · decide +kernel
        · decide +kernel
    · constructor
      · rw [hplain]
        apply IsPrinted.plain ⟨false, ['0'], "12345".toList, none⟩
        · refine ⟨by decide, List.all_eq_true.mp rfl, ?_⟩
          rintro _ _ ⟨⟩
        · decide
        · rfl
      · rw [hplain]
        refine ⟨.finite false (2469 / 20000), ?_, Or.inl ?_⟩
        · decide +kernel
        · decide +kernel
  have hline : (linesOf (m.render text))[1]? = some line := by decide +kernel
  have hword : wordsOf (stripFrame line) = [word] := by decide +kernel
  refine ⟨hm, hprinter, hline, hword, ?_⟩
  obtain ⟨width, body, hlines, hlength, hrows⟩ := render_reads_back text quotient m hm hprinter
  have hbody : body[0]? = some line := by
    have hfirst : 0 < body.length := hlength ▸ Nat.two_pos
    rw [hlines, List.cons_append, List.getElem?_cons_succ,
      List.getElem?_append_left hfirst] at hline
    exact hline
  apply ((hrows 0 line hbody).2 0 word 1.5e-7 (by rw [hword]; rfl) rfl).2
  decide +kernel

end HeldMatrix

end Georeferencing
