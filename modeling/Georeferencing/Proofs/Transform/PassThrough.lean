import Georeferencing.Proofs.Transform.Points
import Georeferencing.Proofs.Matrix.Writing

/-! # Transforming some ordinates only

The homogeneous coordinates of a point are told by the roles of its ordinates as the rows and the
columns of a pass-through matrix are: some pass, the others are the homogeneous coordinates for the
matrix inside. The product with the matrix is taken in both parts apart, so that the ordinates which
pass come back as they are.
-/

namespace Georeferencing

section Arithmetic

variable {α : Type} [Scalar α] {sub : HeldMatrix α} {leading trailing m n : ℕ}

namespace StoredMatrix

/-- The last row of a pass-through is that of the matrix inside, with a zero for each ordinate that
passes. -/
theorem isAffine_passEntry (hzero : ((0 : α) == 0) = true) (coefficient : ℕ → ℕ → α) :
    Grid.IsAffine ⟨m + (leading + trailing) + 1, n + (leading + trailing) + 1,
      passEntry leading trailing m n coefficient⟩ ↔ Grid.IsAffine ⟨m + 1, n + 1, coefficient⟩ := by
  have hcell : ∀ j k, j ≤ n + (leading + trailing) → passRole leading n trailing j = .inr k →
      (passEntry leading trailing m n coefficient (m + (leading + trailing)) j ==
        if j + 1 = n + (leading + trailing) + 1 then 1 else 0) =
      (coefficient m k == if k + 1 = n + 1 then 1 else 0) := by
    intro j k hj hrole
    have hplace : j + 1 = n + (leading + trailing) + 1 ↔ k + 1 = n + 1 := by
      rcases passRole_eq_inr hj hrole with hinside | hlast
      · omega
      · omega
    rw [passEntry, passRole_last_eq, hrole]
    exact congrArg (coefficient m k == ·) (if_congr hplace rfl rfl)
  have hrow : (∀ j < n + (leading + trailing) + 1,
      (passEntry leading trailing m n coefficient (m + (leading + trailing)) j ==
        if j + 1 = n + (leading + trailing) + 1 then 1 else 0) = true) ↔
      ∀ j < n + 1, (coefficient m j == if j + 1 = n + 1 then 1 else 0) = true := by
    constructor
    · intro h k hk
      obtain ⟨j, hj, hrole⟩ := exists_passRole_inr (Nat.le_of_lt_succ hk)
      rw [← hcell j k hj hrole]
      exact h j (Nat.lt_succ_of_le hj)
    · intro h j hj
      cases hrole : passRole leading n trailing j with
      | inl k =>
        have hplace : j + 1 ≠ n + (leading + trailing) + 1 := by
          intro hplace
          rw [Nat.succ_inj.mp hplace, passRole_last_eq] at hrole
          cases hrole
        rw [passEntry, passRole_last_eq, hrole, if_neg hplace]
        exact hzero
      | inr k =>
        rw [hcell j k (Nat.le_of_lt_succ hj) hrole]
        exact h k (Nat.lt_succ_of_le (passRole_inr hrole))
  constructor
  · rintro ⟨hsquare, -, h⟩
    exact ⟨by simp only at hsquare ⊢; omega, Nat.succ_ne_zero _, hrow.mp h⟩
  · rintro ⟨hsquare, -, h⟩
    exact ⟨by simp only at hsquare ⊢; omega, Nat.succ_ne_zero _, hrow.mpr h⟩

end StoredMatrix

theorem HeldMatrix.isAffine_iff (h : sub.Complete) : sub.isAffine = true ↔
    Grid.IsAffine ⟨sub.numRow, sub.numCol, sub.coefficient⟩ := by
  have hcopied : sub.copied = sub.coefficient := by
    funext row column
    exact if_pos h
  rw [isAffine_iff_copied h, hcopied]

namespace StoredMatrix

theorem passThrough_of_empty (h : sub.numRow = 0 ∨ sub.numCol = 0) :
    passThrough leading sub trailing =
      .error (.illegalArgument (.emptySubMatrix sub.numRow sub.numCol)) :=
  if_pos h

theorem passThrough_eq_error {e : MatrixError} : passThrough leading sub trailing = .error e ↔
    (sub.numRow = 0 ∨ sub.numCol = 0) ∧
      e = .illegalArgument (.emptySubMatrix sub.numRow sub.numCol) := by
  constructor
  · intro h
    have hempty : sub.numRow = 0 ∨ sub.numCol = 0 := by
      by_contra hne
      rw [passThrough, if_neg hne] at h
      cases h
    rw [passThrough_of_empty hempty] at h
    cases h
    exact ⟨hempty, rfl⟩
  · rintro ⟨hempty, rfl⟩
    exact passThrough_of_empty hempty

/-- Written cell by cell, a pass-through is the same and fails for the same cause. -/
theorem writePassThrough_eq_ofMatrix (h : sub.Complete) :
    writePassThrough leading sub trailing =
      Checked.ofMatrix (passThrough leading sub trailing) := by
  by_cases hempty : sub.numRow = 0 ∨ sub.numCol = 0
  · rw [passThrough_of_empty hempty]
    exact if_pos hempty
  · rw [not_or] at hempty
    obtain ⟨m, hm⟩ := Nat.exists_eq_succ_of_ne_zero hempty.1
    obtain ⟨n, hn⟩ := Nat.exists_eq_succ_of_ne_zero hempty.2
    rw [writePassThrough_eq h hm hn, passThrough_eq hm hn]
    rfl

theorem isAffine_passThrough (hzero : ((0 : α) == 0) = true) (h : sub.Complete)
    {x : StoredMatrix α} (hx : passThrough leading sub trailing = .ok x) :
    x.isAffine = true ↔ sub.isAffine = true := by
  have hempty : ¬ (sub.numRow = 0 ∨ sub.numCol = 0) := by
    intro hempty
    rw [passThrough_of_empty hempty] at hx
    cases hx
  rw [not_or] at hempty
  obtain ⟨m, hm⟩ := Nat.exists_eq_succ_of_ne_zero hempty.1
  obtain ⟨n, hn⟩ := Nat.exists_eq_succ_of_ne_zero hempty.2
  rw [passThrough_eq hm hn] at hx
  cases hx
  rw [(represents_ofFn _ _ _).isAffine, decide_eq_true_iff, HeldMatrix.isAffine_iff h, hm, hn]
  exact isAffine_passEntry hzero _

end StoredMatrix

end Arithmetic

section Exact

variable {K : Type} [Field K] {leading trailing m n : ℕ} {lead mid trail : List K}

/-- The ordinates by their roles. -/
theorem getD_passRole {i : ℕ} (hi : i ≤ mid.length + (lead.length + trail.length)) :
    (lead ++ mid ++ trail ++ [1]).getD i 0 =
      Sum.elim (fun k => (lead ++ trail).getD k 0) (fun k => (mid ++ [1]).getD k 0)
        (passRole lead.length mid.length trail.length i) := by
  rw [List.append_assoc, List.append_assoc]
  obtain h | ⟨h, h'⟩ | ⟨h, h'⟩ | rfl : i < lead.length ∨
      (lead.length ≤ i ∧ i < lead.length + mid.length) ∨
      (lead.length + mid.length ≤ i ∧ i < lead.length + mid.length + trail.length) ∨
      i = mid.length + (lead.length + trail.length) := by omega
  · rw [passRole_leading h, Sum.elim_inl, List.getD_append _ _ _ _ h, List.getD_append _ _ _ _ h]
  · rw [passRole_inside h h', Sum.elim_inr, List.getD_append_right _ _ _ _ h,
      List.getD_append _ _ _ _ (by omega), List.getD_append _ _ _ _ (by omega)]
  · rw [passRole_trailing h h', Sum.elim_inl, List.getD_append_right _ _ _ _ (by omega),
      List.getD_append_right _ _ _ _ (by omega), List.getD_append _ _ _ _ (by omega),
      List.getD_append_right _ _ _ _ (by omega)]
    congr 1
    omega
  · rw [passRole_last_eq, Sum.elim_inr, List.getD_append_right _ _ _ _ (by omega),
      List.getD_append_right _ _ _ _ (by omega), List.getD_append_right _ _ _ _ (by omega),
      List.getD_append_right _ _ _ _ le_rfl]
    congr 1
    omega

/-- The homogeneous coordinates by the roles of the columns. -/
theorem homogeneous_append (hlead : lead.length = leading) (hmid : mid.length = n)
    (htrail : trail.length = trailing) :
    homogeneous (n + (leading + trailing)) (lead ++ mid ++ trail) =
      Sum.elim (fun k : Fin (leading + trailing) => (lead ++ trail).getD k 0) (homogeneous n mid) ∘
        passIndex leading trailing n := by
  subst hlead hmid htrail
  funext i
  have hlength : (lead ++ mid ++ trail).length = mid.length + (lead.length + trail.length) := by
    rw [List.length_append, List.length_append]
    omega
  rw [homogeneous_eq_getD hlength, getD_passRole (Nat.le_of_lt_succ i.isLt), ← passIndex_map,
    Function.comp_apply]
  cases passIndex lead.length trail.length mid.length i with
  | inl k => rfl
  | inr k => exact (homogeneous_eq_getD rfl k).symm

variable [LinearOrder K]

/-- Coordinates that pass are kept, the others are multiplied by the matrix inside. -/
theorem passBlocks_mulVec (a : Matrix (Fin (m + 1)) (Fin (n + 1)) K)
    (passed : Fin (leading + trailing) → K) (v : Fin (n + 1) → K) :
    (passBlocks leading trailing a).mulVec (Sum.elim passed v ∘ passIndex leading trailing n) =
      Sum.elim passed (a.mulVec v) ∘ passIndex leading trailing m := by
  have hblocks : (Matrix.fromBlocks 1 0 0 a).mulVec (Sum.elim passed v) =
      Sum.elim passed (a.mulVec v) := by
    rw [Matrix.fromBlocks_mulVec, Sum.elim_comp_inl, Sum.elim_comp_inr, Matrix.one_mulVec,
      Matrix.zero_mulVec, Matrix.zero_mulVec, add_zero, zero_add]
  funext i
  -- Each role is that of one column, so that a sum over the columns is one over the roles.
  calc (passBlocks leading trailing a).mulVec (Sum.elim passed v ∘ passIndex leading trailing n) i
      = ∑ j, Matrix.fromBlocks 1 0 0 a (passIndex leading trailing m i)
          (passIndex leading trailing n j) * Sum.elim passed v (passIndex leading trailing n j) :=
        rfl
    _ = ∑ y, Matrix.fromBlocks 1 0 0 a (passIndex leading trailing m i) y *
          Sum.elim passed v y := passIndex_bijective.sum_comp fun y =>
            Matrix.fromBlocks 1 0 0 a (passIndex leading trailing m i) y * Sum.elim passed v y
    _ = (Matrix.fromBlocks 1 0 0 a).mulVec (Sum.elim passed v) (passIndex leading trailing m i) :=
        rfl
    _ = _ := congrFun hblocks _

namespace Projective

variable {s t : Projective K}

/-- Around a transform whose denominator is one, the other ordinates come back as they are. -/
theorem image_passThrough (hs : s.HasShape n m) (hmid : mid.length = n)
    (hw : s.denominator mid = 1)
    (ht : t.matrix = .ofMatrix (passBlocks lead.length trail.length
      (s.matrix.toMatrix (m + 1) (n + 1)))) :
    t.image (lead ++ mid ++ trail) = lead ++ s.image mid ++ trail := by
  have hshape : t.HasShape (n + (lead.length + trail.length))
      (m + (lead.length + trail.length)) := by
    obtain ⟨matrix⟩ := t
    cases ht
    exact hasShape_ofMatrix _
  have hlength : (lead ++ mid ++ trail).length = n + (lead.length + trail.length) := by
    rw [List.length_append, List.length_append, hmid]
    omega
  have himage : (s.image mid).length = m := by
    rw [image_eq hs hmid, length_ofHomogeneous]
  have hlift : s.lift n m mid = homogeneous m (s.image mid) := by
    rw [denominator_eq hs hmid] at hw
    rw [image_eq hs hmid, homogeneous_ofHomogeneous _ (hw ▸ one_ne_zero), hw, inv_one, one_smul]
  have hresult : (lead ++ s.image mid ++ trail).length = m + (lead.length + trail.length) := by
    rw [List.length_append, List.length_append, himage]
    omega
  have hpoint : t.lift (n + (lead.length + trail.length)) (m + (lead.length + trail.length))
      (lead ++ mid ++ trail) =
        homogeneous (m + (lead.length + trail.length)) (lead ++ s.image mid ++ trail) := by
    rw [lift, ht, StoredMatrix.toMatrix_ofMatrix, homogeneous_append rfl hmid rfl,
      passBlocks_mulVec, homogeneous_append rfl himage rfl, ← hlift, lift]
  rw [image_eq hshape hlength, hpoint, ofHomogeneous_homogeneous hresult]

end Projective

/-- The last row is zero except for a trailing one, so that points are not divided. -/
def HeldMatrix.KeepsLastOrdinate (m : HeldMatrix K) : Prop :=
  ∀ j < m.numCol, m.get (m.numRow - 1) j = .ok (if j + 1 = m.numCol then 1 else 0)

/-- The transform of a matrix as it is held inside of a pass-through. -/
theorem HeldMatrix.exists_transform {sub : HeldMatrix K} (hsub : sub.Consistent)
    (hlast : sub.KeepsLastOrdinate) (hr : sub.numRow = m + 1) (hc : sub.numCol = n + 1) :
    ∃ s : Projective K, Projective.ofMatrix sub.toStored = .ok s ∧ s.HasShape n m ∧
      s.matrix.toMatrix (m + 1) (n + 1) = sub.toMatrix (m + 1) (n + 1) ∧
      ∀ point : List K, point.length = n → s.denominator point = 1 := by
  obtain ⟨hrow, hcol, helements⟩ := toStored_of_complete hsub.1
  have hread : sub.toStored.toMatrix (m + 1) (n + 1) = sub.toMatrix (m + 1) (n + 1) := by
    rw [StoredMatrix.toMatrix, HeldMatrix.toMatrix, hcol, helements]
  have hshape : Projective.HasShape ⟨sub.toStored⟩ n m :=
    ⟨hrow.trans hr, hcol.trans hc, by
      rw [StoredMatrix.Consistent, hrow, hcol, helements]
      exact hsub.1⟩
  refine ⟨⟨sub.toStored⟩, if_neg (by omega), hshape, hread, fun point hp => ?_⟩
  rw [Projective.denominator_eq hshape hp]
  apply Projective.lift_last_of_row
  intro j
  have hcell := hlast j (j.isLt.trans_eq hc.symm)
  rw [hsub.2, hr, hc, Nat.add_sub_cancel, if_pos ⟨Nat.lt_succ_self m, j.isLt⟩] at hcell
  rw [hread, HeldMatrix.toMatrix, hc]
  refine (Except.ok.inj hcell).trans (if_congr ?_ rfl rfl)
  rw [Fin.ext_iff, Fin.val_last, Nat.succ_inj]

end Exact

/-- A pass-through fails only for want of a row or a column, also if it is written cell by cell and
whatever is read, subtracted and written is checked, and it is affine if and only if the matrix
inside is. In exact arithmetic its transform applies the transform of the matrix inside to the
ordinates between those that pass. -/
theorem StoredMatrix.passThrough_affects_inside :
    (∀ {α : Type} [Scalar α] (sub : HeldMatrix α) (leading trailing : ℕ), sub.Consistent →
      writePassThrough leading sub trailing =
        Checked.ofMatrix (passThrough leading sub trailing) ∧
      (∀ e, passThrough leading sub trailing = .error e ↔
        (sub.numRow = 0 ∨ sub.numCol = 0) ∧
          e = .illegalArgument (.emptySubMatrix sub.numRow sub.numCol)) ∧
      (((0 : α) == 0) = true → ∀ x, passThrough leading sub trailing = .ok x →
        (x.isAffine = true ↔ sub.isAffine = true))) ∧
    ∀ {K : Type} [Field K] [LinearOrder K] [Elementary K] (sub : HeldMatrix K)
      (lead mid trail : List K), sub.Consistent → 0 < sub.numRow → sub.KeepsLastOrdinate →
      mid.length + 1 = sub.numCol →
        ∃ x t s q, passThrough lead.length sub trail.length = .ok x ∧
          Projective.ofMatrix x = .ok t ∧ Projective.ofMatrix sub.toStored = .ok s ∧
          (Transform.linear s).applyPoint mid = .ok q ∧ q.length + 1 = sub.numRow ∧
          (Transform.linear t).applyPoint (lead ++ mid ++ trail) =
            .ok (lead ++ q ++ trail) := by
  constructor
  · intro α _ sub leading trailing hsub
    exact ⟨writePassThrough_eq_ofMatrix hsub.1, fun _ => passThrough_eq_error,
      fun hzero _ hx => isAffine_passThrough hzero hsub.1 hx⟩
  · intro K _ _ _ sub lead mid trail hsub hpos hlast hmid
    obtain ⟨m, hm⟩ := Nat.exists_eq_succ_of_ne_zero hpos.ne'
    obtain ⟨s, hs, hshape, hread, hw⟩ := HeldMatrix.exists_transform hsub hlast hm hmid.symm
    let t : Projective K := ⟨.ofMatrix (passBlocks lead.length trail.length
      (sub.toMatrix (m + 1) (mid.length + 1)))⟩
    have htshape : t.HasShape (mid.length + (lead.length + trail.length))
        (m + (lead.length + trail.length)) := Projective.hasShape_ofMatrix _
    have himage : t.image (lead ++ mid ++ trail) = lead ++ s.image mid ++ trail :=
      Projective.image_passThrough hshape rfl (hw mid rfl) (by rw [hread])
    refine ⟨_, t, s, s.image mid, passThrough_eq_ofMatrix hm hmid.symm, ?_, hs,
      Transform.applyPoint_linear hshape.source.symm, ?_, ?_⟩
    · rw [Projective.ofMatrix, if_neg]
      rw [htshape.numRow, htshape.numCol]
      omega
    · rw [Projective.image_eq hshape rfl, length_ofHomogeneous, hm]
    · rw [← himage]
      apply Transform.applyPoint_linear
      rw [htshape.source, List.length_append, List.length_append]
      omega

/-- A projection of the plane onto a line, with one ordinate before and two behind; a matrix without
rows; and an affine matrix of doubles. -/
theorem StoredMatrix.passThrough_affects_inside_line :
    letI : Elementary ℚ := Exact.quarterTurns
    let sub : HeldMatrix ℚ := .flat ⟨2, 3, #[1, 2, 3, 0, 0, 1]⟩
    let empty : HeldMatrix ℚ := .flat ⟨0, 3, #[]⟩
    let scale : HeldMatrix Float := .square 2 (.of2 2 5 0 1)
    (sub.Consistent ∧ 0 < sub.numRow ∧ sub.KeepsLastOrdinate) ∧
    (∃ x t s q, passThrough 1 sub 2 = .ok x ∧ Projective.ofMatrix x = .ok t ∧
      Projective.ofMatrix sub.toStored = .ok s ∧
      (Transform.linear s).applyPoint [4, 5] = .ok q ∧ q.length + 1 = 2 ∧
      (Transform.linear t).applyPoint [7, 4, 5, 8, 9] = .ok (7 :: q ++ [8, 9])) ∧
    (empty.Consistent ∧ passThrough 1 empty 2 = .error (.illegalArgument (.emptySubMatrix 0 3))) ∧
    scale.Consistent ∧ ((0 : Float) == 0) = true ∧ ∀ x, passThrough 1 scale 2 = .ok x →
      (x.isAffine = true ↔ scale.isAffine = true) := by
  let _ : Elementary ℚ := Exact.quarterTurns
  intro sub empty scale
  have hflat : ∀ m : FlatMatrix ℚ, m.elements.size = m.numRow * m.numCol →
      (HeldMatrix.flat m).Consistent := fun m h => ⟨h, fun _ _ => rfl⟩
  have hsub : sub.Consistent := hflat _ rfl
  have hempty : empty.Consistent := hflat _ rfl
  have hscale : scale.Consistent := HeldMatrix.consistent_square _
  have hlast : sub.KeepsLastOrdinate := by
    intro j (hj : j < 3)
    interval_cases j
    · rfl
    · rfl
    · rfl
  have hzero : ((0 : Float) == 0) = true := by decide
  obtain ⟨-, hfails, -⟩ := passThrough_affects_inside.1 empty 1 2 hempty
  exact ⟨⟨hsub, by decide, hlast⟩,
    passThrough_affects_inside.2 sub [7] [4, 5] [8, 9] hsub (by decide) hlast rfl,
    ⟨hempty, (hfails _).mpr ⟨.inl rfl, rfl⟩⟩, hscale, hzero,
    (passThrough_affects_inside.1 scale 1 2 hscale).2.2 hzero⟩

end Georeferencing
