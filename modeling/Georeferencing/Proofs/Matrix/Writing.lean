import Georeferencing.Proofs.Matrix.Copies
import Georeferencing.Proofs.Matrix.PassThrough
import Georeferencing.Proofs.Matrix.Storage
import Georeferencing.Matrix.Writing

/-! # Matrices that are written cell by cell

A plan whose writes are all possible and give the coefficients of a table, and that leaves out none
but zeros, makes the matrix of that table. The plans of the constructions are such: none of their
writes misses the matrix, and nothing is read past an end or subtracted below zero on the way.
-/

namespace Georeferencing

variable {α : Type} {r c : ℕ} {f g : ℕ → ℕ → α}

namespace StoredMatrix

section Plans

variable {plan plan' : List (Except StepFault (CellWrite α))} {m : StoredMatrix α} {i j : ℕ}

/-- A write that does not miss the matrix replaces one cell and keeps the storage. -/
theorem exists_write (hm : m.Canonical) (h : Represents m ⟨r, c, g⟩) {w : CellWrite α}
    (hr : w.row < r) (hc : w.column < c) :
    ∃ y, Checked.ofMatrix (m.set w.row w.column w.value) = .ok y ∧ y.Canonical ∧
      Represents y ⟨r, c, fun i j => if i = w.row ∧ j = w.column then w.value else g i j⟩ := by
  have hset := h.set w.row w.column w.value
  rw [Grid.set, if_pos ⟨hr, hc⟩] at hset
  generalize hy : m.set w.row w.column w.value = outcome at hset
  cases hset with
  | ok hy' => exact ⟨_, rfl, hm.set hy, hy'⟩

theorem carryOut_cons {w : CellWrite α} {y : StoredMatrix α}
    (h : Checked.ofMatrix (m.set w.row w.column w.value) = .ok y)
    (plan : List (Except StepFault (CellWrite α))) :
    m.carryOut (.ok w :: plan) = y.carryOut plan := by
  rw [carryOut, List.foldlM_cons]
  exact congrArg (· >>= fun m => carryOut m plan) h

theorem carryOut_append (m : StoredMatrix α) (plan plan' : List (Except StepFault (CellWrite α))) :
    m.carryOut (plan ++ plan') = m.carryOut plan >>= fun y => y.carryOut plan' := by
  rw [carryOut, List.foldlM_append]
  rfl

/-- Every step of a plan is a write that does not miss the matrix. -/
def PlanInside (r c : ℕ) (plan : List (Except StepFault (CellWrite α))) : Prop :=
  ∀ step ∈ plan, ∃ w, step = .ok w ∧ w.row < r ∧ w.column < c

theorem PlanInside.append (h : PlanInside r c plan) (h' : PlanInside r c plan') :
    PlanInside r c (plan ++ plan') :=
  List.forall_mem_append.mpr ⟨h, h'⟩

theorem PlanInside.mono {r' : ℕ} (h : PlanInside r c plan) (hr : r ≤ r') :
    PlanInside r' c plan := by
  intro step hstep
  obtain ⟨w, hw, hrow, hcolumn⟩ := h step hstep
  exact ⟨w, hw, hrow.trans_le hr, hcolumn⟩

theorem planInside_cons {w : CellWrite α} : PlanInside r c (.ok w :: plan) ↔
    (w.row < r ∧ w.column < c) ∧ PlanInside r c plan := by
  rw [PlanInside, List.forall_mem_cons]
  simp [PlanInside]

theorem planInside_flatMap {κ : Type} {ks : List κ}
    {plans : κ → List (Except StepFault (CellWrite α))} (h : ∀ k ∈ ks, PlanInside r c (plans k)) :
    PlanInside r c (ks.flatMap plans) := by
  intro step hstep
  obtain ⟨k, hk, hstep⟩ := List.mem_flatMap.mp hstep
  exact h k hk step hstep

/-- What a plan writes: coefficients of the table `f`, at places of its shape. -/
def PlanWrites (r c : ℕ) (f : ℕ → ℕ → α) (plan : List (Except StepFault (CellWrite α))) : Prop :=
  ∀ step ∈ plan, ∃ w, step = .ok w ∧ w.row < r ∧ w.column < c ∧ w.value = f w.row w.column

theorem PlanWrites.inside (h : PlanWrites r c f plan) : PlanInside r c plan := by
  intro step hstep
  obtain ⟨w, hw, hr, hc, -⟩ := h step hstep
  exact ⟨w, hw, hr, hc⟩

/-- A place where a plan writes. -/
def PlanCovers (plan : List (Except StepFault (CellWrite α))) (i j : ℕ) : Prop :=
  ∃ value, .ok ⟨i, j, value⟩ ∈ plan

theorem PlanWrites.append (h : PlanWrites r c f plan) (h' : PlanWrites r c f plan') :
    PlanWrites r c f (plan ++ plan') := by
  intro step hstep
  rcases List.mem_append.mp hstep with hstep | hstep
  · exact h step hstep
  · exact h' step hstep

theorem planWrites_flatMap {κ : Type} {ks : List κ}
    {plans : κ → List (Except StepFault (CellWrite α))}
    (h : ∀ k ∈ ks, PlanWrites r c f (plans k)) : PlanWrites r c f (ks.flatMap plans) := by
  intro step hstep
  obtain ⟨k, hk, hstep⟩ := List.mem_flatMap.mp hstep
  exact h k hk step hstep

theorem planWrites_map {ks : List ℕ} {step : ℕ → Except StepFault (CellWrite α)}
    {w : ℕ → CellWrite α} (hstep : ∀ k ∈ ks, step k = .ok (w k))
    (hw : ∀ k ∈ ks, (w k).row < r ∧ (w k).column < c ∧ (w k).value = f (w k).row (w k).column) :
    PlanWrites r c f (ks.map step) := by
  intro _ hmem
  obtain ⟨k, hk, rfl⟩ := List.mem_map.mp hmem
  exact ⟨w k, hstep k hk, hw k hk⟩

theorem planWrites_singleton {w : CellWrite α} (hr : w.row < r) (hc : w.column < c)
    (hvalue : w.value = f w.row w.column) : PlanWrites r c f [.ok w] := by
  intro step hstep
  exact ⟨w, List.mem_singleton.mp hstep, hr, hc, hvalue⟩

theorem PlanCovers.append_left (h : PlanCovers plan i j) : PlanCovers (plan ++ plan') i j :=
  h.imp fun _ hw => List.mem_append_left _ hw

theorem PlanCovers.append_right (h : PlanCovers plan' i j) : PlanCovers (plan ++ plan') i j :=
  h.imp fun _ hw => List.mem_append_right _ hw

theorem planCovers_flatMap {κ : Type} {ks : List κ}
    {plans : κ → List (Except StepFault (CellWrite α))} {k : κ} (hk : k ∈ ks)
    (h : PlanCovers (plans k) i j) : PlanCovers (ks.flatMap plans) i j :=
  h.imp fun _ hw => List.mem_flatMap.mpr ⟨k, hk, hw⟩

theorem planCovers_map {ks : List ℕ} {step : ℕ → Except StepFault (CellWrite α)} {k : ℕ} {value : α}
    (hk : k ∈ ks) (h : step k = .ok ⟨i, j, value⟩) : PlanCovers (ks.map step) i j :=
  ⟨value, List.mem_map.mpr ⟨k, hk, h⟩⟩

theorem planCovers_singleton (i j : ℕ) (value : α) : PlanCovers [.ok ⟨i, j, value⟩] i j :=
  ⟨value, List.mem_singleton_self _⟩

end Plans

/-- Where no write misses the matrix, the first step that can not be taken is the outcome. -/
theorem carryOut_stopped {plan rest : List (Except StepFault (CellWrite α))} {m : StoredMatrix α}
    {fault : StepFault} (hm : m.Canonical) (h : Represents m ⟨r, c, g⟩)
    (hplan : PlanInside r c plan) :
    m.carryOut (plan ++ .error fault :: rest) = .error fault := by
  induction plan generalizing m g with
  | nil => rfl
  | cons step plan ih =>
    rw [PlanInside, List.forall_mem_cons] at hplan
    obtain ⟨⟨w, rfl, hr, hc⟩, hplan⟩ := hplan
    obtain ⟨y, hwrite, hy, hrepresents⟩ := exists_write hm h hr hc
    rw [List.cons_append, carryOut_cons hwrite]
    exact ih hy hrepresents hplan

variable [Scalar α] {m x : StoredMatrix α}

/-- In the storage that their shape asks for, matrices are told apart by shape and coefficients. -/
theorem Canonical.eq_of_elements (hm : m.Canonical) (hx : x.Canonical) (hr : m.numRow = x.numRow)
    (hc : m.numCol = x.numCol) (h : m.elements = x.elements) : m = x := by
  have hread : m.toMatrix x.numRow x.numCol = x.toMatrix x.numRow x.numCol := by
    rw [toMatrix, toMatrix, hc, h]
  exact (hm.eq_ofMatrix hr hc).trans
    ((congrArg ofMatrix hread).trans (hx.eq_ofMatrix rfl rfl).symm)

theorem Canonical.eq_ofFn (hm : m.Canonical) (h : Represents m ⟨r, c, g⟩)
    (hcells : ∀ i < r, ∀ j < c, g i j = f i j) : m = ofFn r c fun i j => f i j := by
  have hf := represents_ofFn r c f
  exact hm.eq_of_elements (canonical_ofBlock _) (h.shape.1.trans hf.shape.1.symm)
    (h.shape.2.trans hf.shape.2.symm)
    (h.elements.trans ((Grid.elements_congr hcells).trans hf.elements.symm))

/-- A plan that writes coefficients of a table, among them all that the matrix does not have yet,
makes the matrix of the table. -/
theorem carryOut_eq {plan : List (Except StepFault (CellWrite α))} (hm : m.Canonical)
    (h : Represents m ⟨r, c, g⟩) (hplan : PlanWrites r c f plan)
    (hrest : ∀ i < r, ∀ j < c, g i j = f i j ∨ PlanCovers plan i j) :
    m.carryOut plan = .ok (ofFn r c fun i j => f i j) := by
  -- Each write leaves fewer places where the matrix and the table differ.
  induction plan generalizing m g with
  | nil =>
    have hcells : ∀ i < r, ∀ j < c, g i j = f i j := by
      intro i hi j hj
      rcases hrest i hi j hj with hcell | ⟨value, hw⟩
      · exact hcell
      · cases hw
    rw [← hm.eq_ofFn h hcells]
    rfl
  | cons step plan ih =>
    rw [PlanWrites, List.forall_mem_cons] at hplan
    obtain ⟨⟨w, rfl, hr, hc, hvalue⟩, hplan⟩ := hplan
    obtain ⟨y, hwrite, hy, hrepresents⟩ := exists_write hm h hr hc
    rw [carryOut_cons hwrite]
    apply ih hy hrepresents hplan
    intro i hi j hj
    by_cases hplace : i = w.row ∧ j = w.column
    · left
      rw [if_pos hplace, hplace.1, hplace.2, hvalue]
    · rw [if_neg hplace]
      rcases hrest i hi j hj with hcell | ⟨value, hw⟩
      · exact .inl hcell
      · rcases List.mem_cons.mp hw with hfirst | hlater
        · cases hfirst
          exact absurd ⟨rfl, rfl⟩ hplace
        · exact .inr ⟨value, hlater⟩

/-- A plan may leave out the zeros of the table. -/
theorem carryOut_zero {plan : List (Except StepFault (CellWrite α))}
    (hplan : PlanWrites r c f plan) (hrest : ∀ i < r, ∀ j < c, f i j = 0 ∨ PlanCovers plan i j) :
    (zero r c).carryOut plan = .ok (ofFn r c fun i j => f i j) :=
  carryOut_eq (canonical_ofBlock _) (represents_ofFn r c fun _ _ => 0) hplan
    fun i hi j hj => (hrest i hi j hj).imp_left Eq.symm

/-! ## Envelopes -/

section Envelopes

variable {e e' : Envelope α} {i j : ℕ}

/-- The coefficient at a row and a column of the matrix between two envelopes. -/
def betweenEntry (e e' : Envelope α) (i j : ℕ) : α :=
  if i = e'.dimension then if j = e.dimension then 1 else 0
  else match e.extents[i]?, e'.extents[i]? with
    | some s, some t =>
      let o := betweenExtents i s t
      if j = e.dimension then o.offset else if j = i then o.scale else 0
    | _, _ => 0

theorem betweenEnvelopes_eq_ofFn (e e' : Envelope α) : betweenEnvelopes e e' =
    ofFn (e'.dimension + 1) (e.dimension + 1) fun i j => betweenEntry e e' i j := rfl

theorem betweenEntry_last (e e' : Envelope α) (j : ℕ) :
    betweenEntry e e' e'.dimension j = if j = e.dimension then 1 else 0 :=
  if_pos rfl

theorem betweenEntry_of_extents {s t : Extent α} (hs : e.extents[i]? = some s)
    (ht : e'.extents[i]? = some t) (j : ℕ) : betweenEntry e e' i j =
      if j = e.dimension then (betweenExtents i s t).offset
      else if j = i then (betweenExtents i s t).scale else 0 := by
  have hi : i ≠ e'.dimension := ((List.getElem?_eq_some_iff.mp ht).1).ne
  rw [betweenEntry, if_neg hi, hs, ht]

/-- A target ordinate without a counterpart is zero. -/
theorem betweenEntry_of_le (h : e.dimension ≤ i) (hi : i < e'.dimension) (j : ℕ) :
    betweenEntry e e' i j = 0 := by
  rw [betweenEntry, if_neg hi.ne, List.getElem?_eq_none h]

/-- The row of an ordinate that both envelopes have. -/
theorem planBetweenExtents_spec (hi : i < e.dimension) (hi' : i < e'.dimension) :
    PlanWrites (e'.dimension + 1) (e.dimension + 1) (betweenEntry e e')
      (planBetweenExtents e e' i) ∧
    ∀ j, betweenEntry e e' i j = 0 ∨ PlanCovers (planBetweenExtents e e' i) i j := by
  obtain ⟨s, hs⟩ : ∃ s, e.extents[i]? = some s := ⟨_, List.getElem?_eq_getElem hi⟩
  obtain ⟨t, ht⟩ : ∃ t, e'.extents[i]? = some t := ⟨_, List.getElem?_eq_getElem hi'⟩
  have hplan : planBetweenExtents e e' i = [.ok ⟨i, i, (betweenExtents i s t).scale⟩] ++
      [.ok ⟨i, e.dimension, (betweenExtents i s t).offset⟩] := by
    rw [planBetweenExtents, Checked.read_of_getElem? hs, Checked.read_of_getElem? ht]
    rfl
  have hentry := betweenEntry_of_extents hs ht
  rw [hplan]
  constructor
  · apply PlanWrites.append
    · apply planWrites_singleton (Nat.lt_succ_of_lt hi') (Nat.lt_succ_of_lt hi)
      rw [hentry, if_neg hi.ne, if_pos rfl]
    · apply planWrites_singleton (Nat.lt_succ_of_lt hi') (Nat.lt_succ_self _)
      rw [hentry, if_pos rfl]
  · intro j
    by_cases hlast : j = e.dimension
    · subst hlast
      exact .inr (planCovers_singleton _ _ _).append_right
    by_cases hdiagonal : j = i
    · subst hdiagonal
      exact .inr (planCovers_singleton _ _ _).append_left
    · left
      rw [hentry, if_neg hlast, if_neg hdiagonal]

/-- Between two envelopes no write misses the matrix. -/
theorem writeBetweenEnvelopes_eq (e e' : Envelope α) :
    writeBetweenEnvelopes e e' = .ok (betweenEnvelopes e e') := by
  rw [writeBetweenEnvelopes, betweenEnvelopes_eq_ofFn]
  apply carryOut_zero
  · apply PlanWrites.append
    · apply planWrites_flatMap
      intro i hi
      rw [List.mem_range, lt_min_iff] at hi
      exact (planBetweenExtents_spec hi.1 hi.2).1
    · apply planWrites_singleton (Nat.lt_succ_self _) (Nat.lt_succ_self _)
      rw [betweenEntry_last, if_pos rfl]
  · intro i hi j hj
    rcases Nat.lt_succ_iff_lt_or_eq.mp hi with hi | rfl
    · rcases lt_or_ge i e.dimension with hsource | hsource
      · refine ((planBetweenExtents_spec hsource hi).2 j).imp_right fun hcovers => ?_
        exact (planCovers_flatMap (List.mem_range.mpr (lt_min hsource hi)) hcovers).append_left
      · exact .inl (betweenEntry_of_le hsource hi j)
    · by_cases hlast : j = e.dimension
      · subst hlast
        exact .inr (planCovers_singleton _ _ _).append_right
      · left
        rw [betweenEntry_last, if_neg hlast]

end Envelopes

/-! ## Ordinates that pass -/

section PassThrough

variable {sub : HeldMatrix α} {leading trailing n t i j k row last : ℕ}

theorem read_coefficient (hsub : sub.Complete) (hj : j < sub.numRow) (hi : i < sub.numCol) :
    Checked.read sub.elements.toList (j * sub.numCol + i) = .ok (sub.coefficient j i) := by
  have hlt := hsub.place_lt hj hi
  apply Checked.read_of_getElem?
  simp [HeldMatrix.coefficient, hlt]

theorem planSubRow_eq (hsub : sub.Complete) (hj : j < sub.numRow) (hn : n < sub.numCol) :
    planSubRow sub leading n last j row =
      (List.range n).map (fun i => .ok ⟨row, leading + i, sub.coefficient j i⟩) ++
        [.ok ⟨row, last, sub.coefficient j n⟩] := by
  have hread : ∀ i ≤ n, Checked.read sub.elements.toList (j * sub.numCol + i) =
      .ok (sub.coefficient j i) := fun i hi => read_coefficient hsub hj (hi.trans_lt hn)
  refine congrArg₂ (· ++ ·) (List.map_congr_left fun i hi => ?_) ?_
  · simp only [hread i (List.mem_range.mp hi).le]
    rfl
  · simp only [hread n le_rfl]
    rfl

/-- A row of the matrix inside is copied to the row that has its role. -/
theorem planSubRow_spec (leading trailing : ℕ) (hsub : sub.Complete) (hn : sub.numCol = n + 1)
    (hj : j < sub.numRow) (hrow : row ≤ t + (leading + trailing))
    (hrole : passRole leading t trailing row = .inr j) :
    let plan := planSubRow sub leading n (n + (leading + trailing)) j row
    PlanWrites (t + (leading + trailing) + 1) (n + (leading + trailing) + 1)
      (passEntry leading trailing t n sub.coefficient) plan ∧
    ∀ column ≤ n + (leading + trailing), ∀ i, passRole leading n trailing column = .inr i →
      PlanCovers plan row column := by
  intro plan
  have hplan : plan = _ := planSubRow_eq hsub hj (hn ▸ Nat.lt_succ_self n)
  have hentry : ∀ column i, passRole leading n trailing column = .inr i →
      passEntry leading trailing t n sub.coefficient row column = sub.coefficient j i := by
    intro column i hcolumn
    rw [passEntry, hrole, hcolumn]
    rfl
  rw [hplan]
  constructor
  · apply PlanWrites.append
    · apply planWrites_map fun _ _ => rfl
      intro i hi
      rw [List.mem_range] at hi
      exact ⟨Nat.lt_succ_of_le hrow, by simp only; omega,
        (hentry _ _ (passRole_inside_eq hi)).symm⟩
    · exact planWrites_singleton (Nat.lt_succ_of_le hrow) (Nat.lt_succ_self _)
        (hentry _ _ (passRole_last_eq leading trailing n)).symm
  · intro column hcolumn i hi
    rcases passRole_eq_inr hcolumn hi with ⟨hlt, rfl⟩ | ⟨rfl, rfl⟩
    · exact (planCovers_map (List.mem_range.mpr hlt) rfl).append_left
    · exact (planCovers_singleton _ _ _).append_right

/-- An ordinate that passes is one in the row and the column that have its number. -/
theorem passEntry_passing (hi : passRole leading t trailing i = .inl k)
    (hj : passRole leading n trailing j = .inl k) (coefficient : ℕ → ℕ → α) :
    passEntry leading trailing t n coefficient i j = 1 := by
  rw [passEntry, hi, hj]
  exact if_pos rfl

/-- Away from the places of ordinates that pass and of the matrix inside there are zeros. -/
theorem passEntry_eq_zero_or (leading trailing t n : ℕ) (coefficient : ℕ → ℕ → α) (i j : ℕ) :
    passEntry leading trailing t n coefficient i j = 0 ∨
    (∃ k, passRole leading t trailing i = .inl k ∧ passRole leading n trailing j = .inl k) ∨
    ∃ k l, passRole leading t trailing i = .inr k ∧ passRole leading n trailing j = .inr l := by
  rw [passEntry]
  cases hi : passRole leading t trailing i with
  | inl k =>
    cases hj : passRole leading n trailing j with
    | inl l =>
      by_cases hkl : k = l
      · subst hkl
        exact .inr (.inl ⟨k, rfl, rfl⟩)
      · exact .inl (if_neg hkl)
    | inr l => exact .inl rfl
  | inr k =>
    cases hj : passRole leading n trailing j with
    | inl l => exact .inl rfl
    | inr l => exact .inr (.inr ⟨k, l, rfl, rfl⟩)

/-- The ones of the leading ordinates. -/
theorem planLeading_spec (leading trailing t n : ℕ) (coefficient : ℕ → ℕ → α) :
    let plan := (List.range leading).map fun j => (.ok ⟨j, j, 1⟩ : Except StepFault (CellWrite α))
    PlanWrites (t + (leading + trailing) + 1) (n + (leading + trailing) + 1)
      (passEntry leading trailing t n coefficient) plan ∧
    ∀ i j k, passRole leading t trailing i = .inl k → passRole leading n trailing j = .inl k →
      k < leading → PlanCovers plan i j := by
  constructor
  · apply planWrites_map fun _ _ => rfl
    intro j hj
    rw [List.mem_range] at hj
    exact ⟨by simp only; omega, by simp only; omega,
      (passEntry_passing (passRole_leading hj) (passRole_leading hj) _).symm⟩
  · intro i j k hi hj hk
    rw [passRole_eq_inl_iff (Nat.lt_add_right _ hk), passNumber, if_pos hk] at hi hj
    subst hi hj
    exact planCovers_map (List.mem_range.mpr hk) rfl

/-- The ones of the trailing ordinates, whose rows are found by a subtraction. -/
theorem planTrailing_spec (leading trailing t n : ℕ) (coefficient : ℕ → ℕ → α) :
    let plan := (List.range' (n + leading) (n + (leading + trailing) - (n + leading))).map fun i =>
      (do return ⟨← Checked.subtract (i + t) n, i, 1⟩ : Except StepFault (CellWrite α))
    PlanWrites (t + (leading + trailing) + 1) (n + (leading + trailing) + 1)
      (passEntry leading trailing t n coefficient) plan ∧
    ∀ i j k, passRole leading t trailing i = .inl k → passRole leading n trailing j = .inl k →
      leading ≤ k → PlanCovers plan i j := by
  have hwrite : ∀ i, n ≤ i → (do return ⟨← Checked.subtract (i + t) n, i, 1⟩ :
      Except StepFault (CellWrite α)) = .ok ⟨i + t - n, i, 1⟩ := by
    intro i hi
    rw [Checked.subtract_of_le (Nat.le_add_right_of_le hi)]
    rfl
  constructor
  · apply planWrites_map fun i hi => hwrite i (by rw [List.mem_range'_1] at hi; omega)
    intro i hi
    rw [List.mem_range'_1] at hi
    have hrow : passRole leading t trailing (i + t - n) = .inl (i - n) := by
      rw [passRole_trailing (by omega) (by omega)]
      congr 1
      omega
    have hcolumn : passRole leading n trailing i = .inl (i - n) :=
      passRole_trailing (by omega) (by omega)
    exact ⟨by simp only; omega, by simp only; omega, (passEntry_passing hrow hcolumn _).symm⟩
  · intro i j k hi hj hk
    have hlt := passRole_inl hi
    rw [passRole_eq_inl_iff hlt, passNumber, if_neg (not_lt.mpr hk)] at hi hj
    subst hi hj
    apply planCovers_map (k := k + n)
    · rw [List.mem_range'_1]
      omega
    · rw [hwrite (k + n) (Nat.le_add_left n k), Nat.add_right_comm, Nat.add_sub_cancel]

/-- Around a matrix with a row and a column, no write misses the matrix, nothing is read past the
end and nothing is subtracted below zero. -/
theorem writePassThrough_eq (hsub : sub.Complete) (hr : sub.numRow = t + 1)
    (hc : sub.numCol = n + 1) : writePassThrough leading sub trailing =
      .ok (ofFn (t + (leading + trailing) + 1) (n + (leading + trailing) + 1) fun i j =>
        passEntry leading trailing t n sub.coefficient i j) := by
  have hleading := planLeading_spec leading trailing t n sub.coefficient
  have htrailing := planTrailing_spec leading trailing t n sub.coefficient
  have hlast := planSubRow_spec leading trailing hsub hc (hr ▸ Nat.lt_succ_self t) le_rfl
    (passRole_last_eq leading trailing t)
  have hinside : ∀ j < t, _ := fun j hj =>
    planSubRow_spec leading trailing hsub hc (show j < sub.numRow by omega)
      (show leading + j ≤ t + (leading + trailing) by omega) (passRole_inside_eq hj)
  rw [writePassThrough, if_neg (by omega)]
  refine bind_eq_ok.mpr ⟨n, ?_, bind_eq_ok.mpr ⟨t, ?_, bind_eq_ok.mpr ⟨n + leading, ?_, ?_⟩⟩⟩
  · rw [hc, Checked.subtract_of_le (Nat.le_add_left 1 n), Nat.add_sub_cancel]
  · rw [hr, Checked.subtract_of_le (Nat.le_add_left 1 t), Nat.add_sub_cancel]
  · rw [Checked.subtract_of_le (by omega)]
    congr 1
    omega
  apply carryOut_zero
  · refine ((hleading.1.append ?_).append htrailing.1).append hlast.1
    exact planWrites_flatMap fun j hj => (hinside j (List.mem_range.mp hj)).1
  · intro i hi j hj
    refine (passEntry_eq_zero_or leading trailing t n sub.coefficient i j).imp_right ?_
    rintro (⟨k, hrow, hcolumn⟩ | ⟨k, l, hrow, hcolumn⟩)
    · rcases lt_or_ge k leading with hk | hk
      · exact (hleading.2 i j k hrow hcolumn hk).append_left.append_left.append_left
      · exact (htrailing.2 i j k hrow hcolumn hk).append_right.append_left
    · have hj' := Nat.le_of_lt_succ hj
      rcases passRole_eq_inr (Nat.le_of_lt_succ hi) hrow with ⟨hk, rfl⟩ | ⟨rfl, rfl⟩
      · exact (planCovers_flatMap (List.mem_range.mpr hk)
          ((hinside k hk).2 j hj' l hcolumn)).append_right.append_left.append_left
      · exact (hlast.2 j hj' l hcolumn).append_right

end PassThrough

end StoredMatrix

end Georeferencing
