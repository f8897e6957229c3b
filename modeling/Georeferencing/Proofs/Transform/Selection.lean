import Georeferencing.Proofs.Matrix.AxisWriting
import Georeferencing.Proofs.Transform.Frames

/-! # Selecting ordinates

A selection keeps the listed ordinates of a point, in the order of the list, some of them maybe
several times and others not at all. It fails at the first listed ordinate that the source does not
have. A selection from a selection is a selection of the original ordinates, and so is the product
of their matrices. These are square only if as many ordinates are listed as there are; otherwise
they are applied with a denominator, which is one.
-/

namespace Georeferencing

namespace StoredMatrix

section Arithmetic

variable {α : Type} [Scalar α] {n : ℕ} {selected before after : List ℕ} {x : StoredMatrix α}
  {error : MatrixError}

/-- The source ordinate as it is. -/
def OrdinateMap.unchanged (index : ℕ) : OrdinateMap α := ⟨index, 1, 0⟩

/-- One of the ordinates that a selection lists. -/
def selectedOrdinate (n index : ℕ) : Except MatrixError (OrdinateMap α) :=
  if index < n then .ok (.unchanged index) else .error (.indexOutOfRange index n)

/-- What is wrong with the first listed ordinate that the source does not have. -/
def FirstOutside (n : ℕ) (selected : List ℕ) (error : MatrixError) : Prop :=
  ∃ before index after, selected = before ++ index :: after ∧ (∀ k ∈ before, k < n) ∧
    n ≤ index ∧ error = .indexOutOfRange index n

theorem selectOrdinates_eq (n : ℕ) (selected : List ℕ) :
    (selectOrdinates n selected : Except MatrixError (StoredMatrix α)) =
      selected.mapM (selectedOrdinate n) >>= fun ordinates => .ok (ofOrdinates n ordinates) := rfl

theorem exists_selectedOrdinate_iff {index : ℕ} :
    (∃ o : OrdinateMap α, selectedOrdinate n index = .ok o) ↔ index < n := by
  rw [selectedOrdinate]
  split
  · next h => simp [h]
  · next h => simp [h]

theorem selectedOrdinate_eq_error {index : ℕ} :
    (selectedOrdinate n index : Except MatrixError (OrdinateMap α)) = .error error ↔
      n ≤ index ∧ error = .indexOutOfRange index n := by
  rw [selectedOrdinate]
  split
  · next h => simp [h]
  · next h => simp [not_lt.mp h, eq_comm]

theorem selectOrdinates_of_forall (h : ∀ k ∈ selected, k < n) :
    selectOrdinates n selected = .ok (ofOrdinates n (selected.map OrdinateMap.unchanged) :
      StoredMatrix α) := by
  have hordinates : selected.mapM (selectedOrdinate n) =
      .ok (selected.map (OrdinateMap.unchanged (α := α))) :=
    mapM_eq_ok_map fun k hk => if_pos (h k hk)
  rw [selectOrdinates_eq, hordinates]
  rfl

theorem selectOrdinates_eq_error :
    (selectOrdinates n selected : Except MatrixError (StoredMatrix α)) = .error error ↔
      FirstOutside n selected error := by
  rw [selectOrdinates_eq, bind_eq_error, mapM_eq_error]
  simp only [exists_selectedOrdinate_iff, selectedOrdinate_eq_error, reduceCtorEq, and_false,
    exists_false, or_false, FirstOutside]

theorem exists_selectOrdinates_iff :
    (∃ x : StoredMatrix α, selectOrdinates n selected = .ok x) ↔ ∀ k ∈ selected, k < n := by
  constructor
  · rintro ⟨x, hx⟩ k hk
    obtain ⟨ordinates, hordinates, -⟩ := bind_eq_ok.mp hx
    exact exists_selectedOrdinate_iff.mp (exists_mapM_iff.mp ⟨ordinates, hordinates⟩ k hk)
  · intro h
    exact ⟨_, selectOrdinates_of_forall h⟩

theorem selectOrdinates_eq_ok : selectOrdinates n selected = .ok x ↔
    (∀ k ∈ selected, k < n) ∧ x = ofOrdinates n (selected.map OrdinateMap.unchanged) := by
  constructor
  · intro hx
    have h := exists_selectOrdinates_iff.mp ⟨x, hx⟩
    rw [selectOrdinates_of_forall h] at hx
    exact ⟨h, (Except.ok.inj hx).symm⟩
  · rintro ⟨h, rfl⟩
    exact selectOrdinates_of_forall h

/-- The matrix of a selection is square if as many ordinates are listed as there are. -/
theorem isAffine_selectOrdinates (hzero : ((0 : α) == 0) = true) (hone : ((1 : α) == 1) = true)
    (h : selectOrdinates n selected = .ok x) : x.isAffine = true ↔ selected.length = n := by
  obtain ⟨-, rfl⟩ := selectOrdinates_eq_ok.mp h
  rw [isAffine_ofOrdinates hzero hone, List.length_map]

/-! ## Writing a selection cell by cell -/

/-- The row of a listed ordinate holds nothing but a one. -/
theorem ordinateEntry_unchanged {i index : ℕ} (h : selected[i]? = some index) (hindex : index < n)
    (j : ℕ) : ordinateEntry n (selected.map OrdinateMap.unchanged) i j =
      if j = index then (1 : α) else 0 := by
  have hunchanged : (selected.map (OrdinateMap.unchanged (α := α)))[i]? =
      some (.unchanged index) := by
    rw [List.getElem?_map, h]
    rfl
  rw [ordinateEntry_of_getElem? hunchanged, OrdinateMap.unchanged]
  by_cases hj : j = index
  · subst hj
    simp [hindex.ne]
  · simp [hj]

/-- Ordinates that the source has are written as ones inside of the matrix. -/
theorem planWrites_selected (h : ∀ k ∈ selected, k < n) :
    PlanWrites (selected.length + 1) (n + 1) (ordinateEntry n (selected.map OrdinateMap.unchanged))
      (selected.mapIdx (planSelected (α := α) n)) := by
  intro step hstep
  obtain ⟨j, hj, rfl⟩ := List.mem_mapIdx.mp hstep
  have hindex : selected[j] < n := h _ (List.getElem_mem hj)
  refine ⟨⟨j, selected[j], 1⟩, if_pos hindex, Nat.lt_succ_of_lt hj, Nat.lt_succ_of_lt hindex, ?_⟩
  rw [ordinateEntry_unchanged (List.getElem?_eq_getElem hj) hindex, if_pos rfl]

/-- Away from the planned ones there are zeros. -/
theorem planCovers_selected (h : ∀ k ∈ selected, k < n) {i j : ℕ} (hi : i < selected.length) :
    (ordinateEntry n (selected.map OrdinateMap.unchanged) i j : α) = 0 ∨
      PlanCovers (selected.mapIdx (planSelected (α := α) n)) i j := by
  have hindex : selected[i] < n := h _ (List.getElem_mem hi)
  rw [ordinateEntry_unchanged (List.getElem?_eq_getElem hi) hindex]
  by_cases hj : j = selected[i]
  · subst hj
    exact .inr ⟨1, List.mem_mapIdx.mpr ⟨i, hi, if_pos hindex⟩⟩
  · exact .inl (if_neg hj)

/-- The matrix of a selection is what is written, and what can not be written is what fails. -/
theorem writeSelectOrdinates_eq (n : ℕ) (selected : List ℕ) :
    (writeSelectOrdinates n selected : Except StepFault (StoredMatrix α)) =
      Checked.ofMatrix (selectOrdinates n selected) := by
  cases hselect : (selectOrdinates n selected : Except MatrixError (StoredMatrix α)) with
  | error e =>
    obtain ⟨before, index, after, rfl, hbefore, hindex, rfl⟩ := selectOrdinates_eq_error.mp hselect
    have hstop : planSelected n before.length index =
        (.error (.refused (.indexOutOfRange index n)) : Except StepFault (CellWrite α)) :=
      if_neg (not_lt.mpr hindex)
    have hlength : before.length + 1 ≤ (before ++ index :: after).length + 1 := by simp
    rw [writeSelectOrdinates, List.mapIdx_append, List.mapIdx_cons, Nat.zero_add, hstop,
      List.append_assoc, List.cons_append]
    exact carryOut_stopped (canonical_ofBlock _) (represents_ofFn _ _ fun _ _ => 0)
      ((planWrites_selected hbefore).inside.mono hlength)
  | ok x =>
    obtain ⟨h, rfl⟩ := selectOrdinates_eq_ok.mp hselect
    have hlength : (selected.map (OrdinateMap.unchanged (α := α))).length = selected.length :=
      List.length_map _
    rw [writeSelectOrdinates, ← hlength]
    apply carryOut_ordinates
    · rw [hlength]
      exact planWrites_selected h
    · rw [hlength]
      exact fun i hi j _ => planCovers_selected h hi

end Arithmetic

/-! ## Selected points -/

section Exact

variable {K : Type} [Field K] [LinearOrder K] {n : ℕ} {selected selected' : List ℕ}
  {x y : StoredMatrix K}

/-- The ordinates of a point that a selection lists. -/
def selectPoint (p : List K) (selected : List ℕ) : List K := selected.map fun i => p.getD i 0

theorem OrdinateMap.unchanged_after (i j : ℕ) :
    (OrdinateMap.unchanged j : OrdinateMap K).after (.unchanged i) = .unchanged i := by
  simp [OrdinateMap.unchanged, OrdinateMap.after]

/-- The product of two selections selects from the selected ordinates. -/
theorem selectOrdinates_comp (hx : selectOrdinates n selected = .ok x)
    (hy : selectOrdinates selected.length selected' = .ok y) :
    ∃ z, selectOrdinates n (selected'.map fun k => selected.getD k 0) = .ok z ∧
      y.mul (.stored x) = .ok z := by
  obtain ⟨h, rfl⟩ := selectOrdinates_eq_ok.mp hx
  obtain ⟨h', rfl⟩ := selectOrdinates_eq_ok.mp hy
  have hget : ∀ k ∈ selected', selected[k]? = some (selected.getD k 0) := by
    intro k hk
    rw [List.getD_eq_getElem?_getD, List.getElem?_eq_getElem (h' k hk), Option.getD_some]
  have hcomposed : ∀ k ∈ selected'.map fun k => selected.getD k 0, k < n := by
    rw [List.forall_mem_map]
    exact fun k hk => h _ (List.mem_of_getElem? (hget k hk))
  refine ⟨_, selectOrdinates_of_forall hcomposed, ?_⟩
  have hinner : ∀ o ∈ selected.map (OrdinateMap.unchanged (α := K)), o.source < n := by
    rw [List.forall_mem_map]
    exact h
  have hlength : (selected.map (OrdinateMap.unchanged (α := K))).length = selected.length :=
    List.length_map _
  rw [← hlength]
  apply mul_ofOrdinates hinner
  rw [List.map_map, List.forall₂_map_left_iff, List.forall₂_map_right_iff, List.forall₂_same]
  intro k hk
  refine ⟨.unchanged (selected.getD k 0), ?_, (OrdinateMap.unchanged_after _ _).symm⟩
  rw [OrdinateMap.unchanged, List.getElem?_map, hget k hk]
  rfl

variable [Elementary K]

theorem applyPoint_selectOrdinates (hx : selectOrdinates n selected = .ok x) {p : List K}
    (hp : p.length = n) :
    (Transform.linear ⟨x⟩).applyPoint p = .ok (selectPoint p selected) := by
  obtain ⟨-, rfl⟩ := selectOrdinates_eq_ok.mp hx
  rw [applyPoint_ofOrdinates _ hp, List.map_map]
  refine congrArg Except.ok (List.map_congr_left fun i _ => ?_)
  simp [OrdinateMap.value, OrdinateMap.unchanged]

variable (K)

/-- In any arithmetic a selection fails if and only if the source does not have one of the listed
ordinates, with the first of these; the writes that make the matrix end in the same way, and the
matrix is affine if and only if as many ordinates are listed as there are. In exact arithmetic its
transform takes the listed ordinates of every point, and the product of two selections is the
selection of what is selected from what is selected. -/
theorem selectOrdinates_spec :
    (∀ (α : Type) [Scalar α] (n : ℕ) (selected : List ℕ),
      ((∃ x : StoredMatrix α, selectOrdinates n selected = .ok x) ↔ ∀ k ∈ selected, k < n) ∧
      (∀ error, (selectOrdinates n selected : Except MatrixError (StoredMatrix α)) =
        .error error ↔ FirstOutside n selected error) ∧
      (writeSelectOrdinates n selected : Except StepFault (StoredMatrix α)) =
        Checked.ofMatrix (selectOrdinates n selected) ∧
      (((0 : α) == 0) = true → ((1 : α) == 1) = true → ∀ x : StoredMatrix α,
        selectOrdinates n selected = .ok x → (x.isAffine = true ↔ selected.length = n))) ∧
    (∀ (n : ℕ) (selected : List ℕ) (x : StoredMatrix K), selectOrdinates n selected = .ok x →
      ∃ t, Projective.ofMatrix x = .ok t ∧ t.source = n ∧ t.target = selected.length ∧
        ∀ p : List K, p.length = n →
          (Transform.linear t).applyPoint p = .ok (selectPoint p selected)) ∧
    ∀ (n : ℕ) (selected selected' : List ℕ) (x y : StoredMatrix K),
      selectOrdinates n selected = .ok x → selectOrdinates selected.length selected' = .ok y →
        ∃ z, selectOrdinates n (selected'.map fun k => selected.getD k 0) = .ok z ∧
          y.IsProduct x z := by
  simp only [isProduct_iff]
  refine ⟨?_, ?_, ?_⟩
  · intro α _ n selected
    exact ⟨exists_selectOrdinates_iff, fun _ => selectOrdinates_eq_error,
      writeSelectOrdinates_eq n selected,
      fun hzero hone _ hx => isAffine_selectOrdinates hzero hone hx⟩
  · intro n selected x hx
    obtain ⟨-, rfl⟩ := selectOrdinates_eq_ok.mp hx
    have hshape := hasShape_ofOrdinates n (selected.map (OrdinateMap.unchanged (α := K)))
    refine ⟨⟨_⟩, ?_, hshape.source, ?_, fun p hp => applyPoint_selectOrdinates hx hp⟩
    · rw [Projective.ofMatrix, if_neg]
      simp
    · rw [hshape.target, List.length_map]
  · intro n selected selected' x y hx hy
    exact selectOrdinates_comp hx hy

/-- The plane ordinates in reverse, one of them twice, and then the last of these alone; a fourth
ordinate is reported before a fifth. -/
theorem selectOrdinates_spec_space :
    letI : Elementary ℚ := Exact.quarterTurns
    let x : StoredMatrix ℚ :=
      .small 4 (by decide) ⟨#v[0, 1, 0, 0, 1, 0, 0, 0, 0, 1, 0, 0, 0, 0, 0, 1]⟩
    let y : StoredMatrix ℚ := .flat ⟨2, 4, #[0, 0, 1, 0, 0, 0, 0, 1]⟩
    ((0 : ℚ) == 0) = true ∧ ((1 : ℚ) == 1) = true ∧
      selectOrdinates 3 [1, 0, 1] = .ok x ∧ selectOrdinates 3 [2] = .ok y ∧
      x.isAffine = true ∧ ¬ y.isAffine = true ∧
      (∃ t, Projective.ofMatrix y = .ok t ∧
        (Transform.linear t).applyPoint [5, 7, 11] = .ok [(11 : ℚ)]) ∧
      (∃ z, selectOrdinates 3 [1] = .ok z ∧ y.IsProduct x z) ∧
      (selectOrdinates 3 [1, 3, 4] : Except MatrixError (StoredMatrix ℚ)) =
        .error (.indexOutOfRange 3 3) := by
  let _ : Elementary ℚ := Exact.quarterTurns
  intro x y
  obtain ⟨hany, hmaps, hcomp⟩ := selectOrdinates_spec ℚ
  have hzero : ((0 : ℚ) == 0) = true := by decide
  have hone : ((1 : ℚ) == 1) = true := by decide
  have hx : selectOrdinates 3 [1, 0, 1] = .ok x := by decide +kernel
  have hy : selectOrdinates 3 [2] = .ok y := by decide +kernel
  refine ⟨hzero, hone, hx, hy, ?_, ?_, ?_, ?_, ?_⟩
  · exact ((hany ℚ 3 _).2.2.2 hzero hone x hx).mpr rfl
  · rw [(hany ℚ 3 _).2.2.2 hzero hone y hy]
    decide
  · obtain ⟨t, ht, -, -, hpoint⟩ := hmaps 3 _ y hy
    exact ⟨t, ht, hpoint [5, 7, 11] rfl⟩
  · exact hcomp 3 [1, 0, 1] [2] x y hx hy
  · exact ((hany ℚ 3 _).2.1 _).mpr ⟨[1], 3, [4], rfl, by decide, le_rfl, rfl⟩

end Exact

end StoredMatrix

end Georeferencing
