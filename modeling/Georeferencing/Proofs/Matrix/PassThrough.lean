import Mathlib.Data.Matrix.Block
import Georeferencing.Matrix.Construction
import Georeferencing.Proofs.Matrix.Algebra

/-! # Passing ordinates through

Each row and each column of a pass-through matrix has a role: it belongs to an ordinate that passes,
or to a row or a column of the matrix inside, the last one included. Told by their roles, rows and
columns are those of a matrix with two blocks, the identity and the matrix inside, whatever the
shape of the latter. So products are taken inside, and ordinates that pass twice pass.
-/

namespace Georeferencing

section Roles

variable {leading inside trailing i j k : ℕ}

/-- What row or column `i` stands for, if there are `leading` ordinates that pass, `inside` that do
not, and `trailing` that pass: the ordinates that pass are numbered on the left, the others on the
right, and the place behind all of them comes last there. -/
def passRole (leading inside trailing i : ℕ) : ℕ ⊕ ℕ :=
  if i < leading then .inl i
  else if i < leading + inside then .inr (i - leading)
  else if i < leading + inside + trailing then .inl (i - inside)
  else .inr inside

theorem passRole_leading (h : i < leading) : passRole leading inside trailing i = .inl i :=
  if_pos h

theorem passRole_inside (h : leading ≤ i) (h' : i < leading + inside) :
    passRole leading inside trailing i = .inr (i - leading) := by
  rw [passRole, if_neg (by omega), if_pos h']

theorem passRole_trailing (h : leading + inside ≤ i) (h' : i < leading + inside + trailing) :
    passRole leading inside trailing i = .inl (i - inside) := by
  rw [passRole, if_neg (by omega), if_neg (by omega), if_pos h']

theorem passRole_last (h : leading + inside + trailing ≤ i) :
    passRole leading inside trailing i = .inr inside := by
  rw [passRole, if_neg (by omega), if_neg (by omega), if_neg (by omega)]

theorem passRole_inl (h : passRole leading inside trailing i = .inl k) :
    k < leading + trailing := by
  unfold passRole at h
  split_ifs at h <;> cases h <;> omega

theorem passRole_inr (h : passRole leading inside trailing i = .inr k) : k ≤ inside := by
  unfold passRole at h
  split_ifs at h <;> cases h <;> omega

/-- The row or column of an ordinate that does not pass, or the last one. -/
theorem passRole_eq_inr (hi : i ≤ inside + (leading + trailing))
    (h : passRole leading inside trailing i = .inr k) :
    k < inside ∧ i = leading + k ∨ k = inside ∧ i = inside + (leading + trailing) := by
  unfold passRole at h
  split_ifs at h <;> cases h <;> omega

theorem passRole_last_eq (leading trailing inside : ℕ) :
    passRole leading inside trailing (inside + (leading + trailing)) = .inr inside :=
  passRole_last (by omega)

theorem passRole_inside_eq (hk : k < inside) :
    passRole leading inside trailing (leading + k) = .inr k := by
  rw [passRole_inside (Nat.le_add_right _ _) (by omega), Nat.add_sub_cancel_left]

theorem exists_passRole_inr (hk : k ≤ inside) :
    ∃ i ≤ inside + (leading + trailing), passRole leading inside trailing i = .inr k := by
  rcases hk.lt_or_eq with hk | rfl
  · exact ⟨leading + k, by omega, passRole_inside_eq hk⟩
  · exact ⟨_, le_rfl, passRole_last_eq leading trailing k⟩

/-- No two rows have the same role. -/
theorem passRole_injective (hi : i ≤ inside + (leading + trailing))
    (hj : j ≤ inside + (leading + trailing))
    (h : passRole leading inside trailing i = passRole leading inside trailing j) : i = j := by
  unfold passRole at h
  split_ifs at h <;> simp only [Sum.inl.injEq, Sum.inr.injEq] at h <;> omega

/-- The place of the ordinate with number `k` among those that pass, if `within` others stand behind
the leading ones. -/
def passNumber (leading within : ℕ) (k : ℕ) : ℕ := if k < leading then k else k + within

/-- The row or column of an ordinate that passes. -/
theorem passRole_eq_inl_iff (hk : k < leading + trailing) :
    passRole leading inside trailing j = .inl k ↔ j = passNumber leading inside k := by
  unfold passRole passNumber
  split_ifs <;> simp only [Sum.inl.injEq, false_iff] <;> omega

theorem passNumber_inj {within l : ℕ} :
    passNumber leading within k = passNumber leading within l ↔ k = l := by
  unfold passNumber
  split_ifs <;> omega

/-- The numbers that are left free. -/
theorem passNumber_ne {within l : ℕ} (h : l < within) :
    passNumber leading within k ≠ leading + l := by
  unfold passNumber
  split_ifs <;> omega

/-- The role in a single pass-through, given the one in the pass-through around another. -/
def passAround (leading within : ℕ) (inner : ℕ → ℕ ⊕ ℕ) : ℕ ⊕ ℕ → ℕ ⊕ ℕ
  | .inl k => .inl (passNumber leading within k)
  | .inr k => (inner k).map (leading + ·) id

/-- The roles in a pass-through around another. -/
theorem passRole_nested {leading' trailing' : ℕ} (i : ℕ) :
    passRole (leading' + leading) inside (trailing + trailing') i =
      passAround leading' (leading + trailing) (passRole leading inside trailing)
        (passRole leading' (inside + (leading + trailing)) trailing' i) := by
  obtain h | h | h | h | h | h : i < leading' ∨ (leading' ≤ i ∧ i < leading' + leading) ∨
      (leading' + leading ≤ i ∧ i < leading' + leading + inside) ∨
      (leading' + leading + inside ≤ i ∧ i < leading' + leading + inside + trailing) ∨
      (leading' + leading + inside + trailing ≤ i ∧
        i < leading' + leading + inside + trailing + trailing') ∨
      leading' + leading + inside + trailing + trailing' ≤ i := by omega
  · rw [passRole_leading (by omega), passRole_leading h, passAround, passNumber, if_pos h]
  · rw [passRole_leading h.2, passRole_inside h.1 (by omega), passAround,
      passRole_leading (by omega), Sum.map_inl, Nat.add_sub_cancel' h.1]
  · rw [passRole_inside h.1 h.2, passRole_inside (by omega) (by omega), passAround,
      passRole_inside (by omega) (by omega), Sum.map_inr, Nat.sub_sub, id]
  · rw [passRole_trailing h.1 (by omega), passRole_inside (by omega) (by omega), passAround,
      passRole_trailing (by omega) (by omega), Sum.map_inl]
    congr 1
    omega
  · rw [passRole_trailing (by omega) (by omega), passRole_trailing (by omega) (by omega),
      passAround, passNumber, if_neg (by omega)]
    congr 1
    omega
  · rw [passRole_last (by omega), passRole_last (by omega), passAround, passRole_last (by omega),
      Sum.map_inr, id]

end Roles

section Entries

variable {α : Type} [Scalar α] {leading trailing m n : ℕ}

/-- The coefficient at a row and a column with the given roles. -/
def roleEntry (coefficient : ℕ → ℕ → α) : ℕ ⊕ ℕ → ℕ ⊕ ℕ → α
  | .inl i, .inl j => if i = j then 1 else 0
  | .inr i, .inr j => coefficient i j
  | .inl _, .inr _ => 0
  | .inr _, .inl _ => 0

theorem roleEntry_inr (coefficient : ℕ → ℕ → α) (i j : ℕ) :
    roleEntry coefficient (.inr i) (passRole leading n trailing j) =
      if j < leading then 0
      else if j < leading + n then coefficient i (j - leading)
      else if j < leading + n + trailing then 0
      else coefficient i n := by
  unfold passRole
  split_ifs <;> rfl

theorem roleEntry_inl (coefficient : ℕ → ℕ → α) {k : ℕ} (hk : k < leading + trailing) (j : ℕ) :
    roleEntry coefficient (.inl k) (passRole leading n trailing j) =
      if j = passNumber leading n k then 1 else 0 := by
  have hrole : ∀ role, roleEntry coefficient (.inl k) role = if role = .inl k then 1 else 0 := by
    intro role
    cases role with
    | inl l => exact if_congr (eq_comm.trans Sum.inl_injective.eq_iff.symm) rfl rfl
    | inr _ => exact (if_neg Sum.inr_ne_inl).symm
  rw [hrole]
  exact if_congr (passRole_eq_inl_iff hk) rfl rfl

/-- The coefficient at row `i` and column `j` of a pass-through of `m` target and `n` source
ordinates. -/
def passEntry (leading trailing m n : ℕ) (coefficient : ℕ → ℕ → α) (i j : ℕ) : α :=
  roleEntry coefficient (passRole leading m trailing i) (passRole leading n trailing j)

/-- The listed coefficient at a row and a column. -/
def HeldMatrix.coefficient (m : HeldMatrix α) (i j : ℕ) : α := m.elements.getD (i * m.numCol + j) 0

/-- A pass-through by the roles of its rows and columns. -/
theorem StoredMatrix.passThrough_eq {sub : HeldMatrix α} (hr : sub.numRow = m + 1)
    (hc : sub.numCol = n + 1) :
    passThrough leading sub trailing =
      .ok (ofFn (m + (leading + trailing) + 1) (n + (leading + trailing) + 1) fun i j =>
        passEntry leading trailing m n sub.coefficient i j) := by
  obtain rfl : m = sub.numRow - 1 := by omega
  obtain rfl : n = sub.numCol - 1 := by omega
  rw [passThrough, if_neg (by omega)]
  refine congrArg Except.ok (congrArg (ofFn _ _) ?_)
  funext i j
  rw [passEntry]
  by_cases hleading : i.val < leading
  · rw [if_pos hleading, passRole_leading hleading,
      roleEntry_inl _ (Nat.lt_add_right trailing hleading), passNumber, if_pos hleading]
  rw [if_neg hleading]
  by_cases hinside : i.val < leading + (sub.numRow - 1)
  · rw [if_pos hinside, passRole_inside (by omega) hinside, roleEntry_inr]
    rfl
  rw [if_neg hinside]
  by_cases htrailing : i.val < leading + (sub.numRow - 1) + trailing
  · have hnumber : leading ≤ i.val - (sub.numRow - 1) ∧
        i.val - (sub.numRow - 1) < leading + trailing := by omega
    rw [if_pos htrailing, passRole_trailing (by omega) htrailing, roleEntry_inl _ hnumber.2,
      passNumber, if_neg (not_lt.mpr hnumber.1)]
    exact if_congr (by omega) rfl rfl
  · rw [if_neg htrailing, passRole_last (by omega), roleEntry_inr]
    rfl

section Tables

variable {r c : ℕ}

omit [Scalar α] in
theorem StoredMatrix.numRow_held_ofFn (f : Fin r → Fin c → α) :
    (HeldMatrix.stored (ofFn r c f)).numRow = r :=
  numRow_ofBlock _

omit [Scalar α] in
theorem StoredMatrix.numCol_held_ofFn (f : Fin r → Fin c → α) :
    (HeldMatrix.stored (ofFn r c f)).numCol = c :=
  numCol_ofBlock _

theorem StoredMatrix.coefficient_ofFn (f : Fin r → Fin c → α) (i : Fin r) (j : Fin c) :
    (HeldMatrix.stored (ofFn r c f)).coefficient i j = f i j := by
  change (ofFn r c f).elements.getD (i * (ofFn r c f).numCol + j) 0 = f i j
  rw [ofFn, elements_ofBlock, numCol_ofBlock, Block.getD_elements, Block.entry_ofFn]

omit [Scalar α] in
theorem StoredMatrix.ofFn_congr {r' c' : ℕ} (hr : r = r') (hc : c = c') {f g : ℕ → ℕ → α}
    (h : ∀ i < r, ∀ j < c, f i j = g i j) :
    ofFn r c (fun i j => f i j) = ofFn r' c' fun i j => g i j := by
  subst hr hc
  exact congrArg (ofFn _ _) (funext fun i => funext fun j => h i i.isLt j j.isLt)

end Tables

/-- Renumbering the ordinates that pass changes nothing. -/
theorem roleEntry_map (coefficient : ℕ → ℕ → α) (x y : ℕ ⊕ ℕ) :
    roleEntry coefficient (x.map (leading + ·) id) (y.map (leading + ·) id) =
      roleEntry coefficient x y := by
  cases x with
  | inl k =>
    cases y with
    | inl l => exact if_congr Nat.add_left_cancel_iff rfl rfl
    | inr _ => rfl
  | inr _ =>
    cases y with
    | inl _ => rfl
    | inr _ => rfl

/-- An entry of a pass-through around another. -/
theorem passEntry_nested {leading' trailing' : ℕ} {outer inner : ℕ → ℕ → α}
    (h : ∀ i ≤ m + (leading + trailing), ∀ j ≤ n + (leading + trailing),
      outer i j = passEntry leading trailing m n inner i j) (i j : ℕ) :
    passEntry leading' trailing' (m + (leading + trailing)) (n + (leading + trailing)) outer i j =
      passEntry (leading' + leading) (trailing + trailing') m n inner i j := by
  rw [passEntry, passEntry]
  rw [passRole_nested, passRole_nested]
  cases hi : passRole leading' (m + (leading + trailing)) trailing' i with
  | inl k =>
    cases hj : passRole leading' (n + (leading + trailing)) trailing' j with
    | inl l => exact if_congr passNumber_inj.symm rfl rfl
    | inr j' =>
      rw [passAround, passAround]
      cases hj' : passRole leading n trailing j' with
      | inl l => exact (if_neg (passNumber_ne (passRole_inl hj'))).symm
      | inr _ => rfl
  | inr i' =>
    cases hj : passRole leading' (n + (leading + trailing)) trailing' j with
    | inl l =>
      rw [passAround, passAround]
      cases hi' : passRole leading m trailing i' with
      | inl k => exact (if_neg (passNumber_ne (passRole_inl hi')).symm).symm
      | inr _ => rfl
    | inr j' =>
      rw [passAround, passAround, roleEntry_map]
      exact h i' (passRole_inr hi) j' (passRole_inr hj)

/-- A pass-through around another is a single one. -/
theorem StoredMatrix.passThrough_nested (leading trailing leading' trailing' : ℕ)
    {sub : HeldMatrix α} (hr : sub.numRow = m + 1) (hc : sub.numCol = n + 1) :
    ∃ inner, passThrough leading sub trailing = .ok inner ∧
      passThrough leading' (.stored inner) trailing' =
        passThrough (leading + leading') sub (trailing + trailing') := by
  refine ⟨_, passThrough_eq hr hc, ?_⟩
  rw [Nat.add_comm leading leading', passThrough_eq (numRow_held_ofFn _) (numCol_held_ofFn _),
    passThrough_eq hr hc]
  refine congrArg Except.ok (ofFn_congr ?_ ?_ fun i _ j _ => ?_)
  · omega
  · omega
  · apply passEntry_nested
    intro i hi j hj
    exact coefficient_ofFn _ ⟨i, Nat.lt_succ_of_le hi⟩ ⟨j, Nat.lt_succ_of_le hj⟩

/-- A pass-through of an identity has ones on the diagonal and zeros elsewhere. -/
theorem passEntry_one {coefficient : ℕ → ℕ → α} {i j : ℕ}
    (h : ∀ i ≤ n, ∀ j ≤ n, coefficient i j = if i = j then 1 else 0)
    (hi : i ≤ n + (leading + trailing)) (hj : j ≤ n + (leading + trailing)) :
    passEntry leading trailing n n coefficient i j = if i = j then 1 else 0 := by
  have hroles : passEntry leading trailing n n coefficient i j =
      if passRole leading n trailing i = passRole leading n trailing j then 1 else 0 := by
    rw [passEntry]
    cases hi' : passRole leading n trailing i with
    | inl k =>
      cases passRole leading n trailing j with
      | inl l => exact if_congr Sum.inl_injective.eq_iff.symm rfl rfl
      | inr l => exact (if_neg Sum.inl_ne_inr).symm
    | inr k =>
      cases hj' : passRole leading n trailing j with
      | inl l => exact (if_neg Sum.inr_ne_inl).symm
      | inr l =>
        exact (h k (passRole_inr hi') l (passRole_inr hj')).trans
          (if_congr Sum.inr_injective.eq_iff.symm rfl rfl)
  rw [hroles]
  exact if_congr ⟨passRole_injective hi hj, congrArg _⟩ rfl rfl

theorem StoredMatrix.passThrough_one {sub : HeldMatrix α} (hr : sub.numRow = n + 1)
    (hc : sub.numCol = n + 1) (h : sub.toMatrix (n + 1) (n + 1) = 1) :
    passThrough leading sub trailing = .ok (.identity (n + (leading + trailing) + 1)) := by
  rw [passThrough_eq hr hc]
  refine congrArg Except.ok (congrArg (ofFn _ _) (funext fun i => funext fun j => ?_))
  apply passEntry_one _ (Nat.le_of_lt_succ i.isLt) (Nat.le_of_lt_succ j.isLt)
  intro k hk l hl
  have hentry := congrFun (congrFun h ⟨k, Nat.lt_succ_of_le hk⟩) ⟨l, Nat.lt_succ_of_le hl⟩
  rw [Matrix.one_apply] at hentry
  exact hentry.trans (if_congr Fin.mk_eq_mk rfl rfl)

/-- The role of a row or a column, as an index of two blocks. -/
def passIndex (leading trailing n : ℕ) (i : Fin (n + (leading + trailing) + 1)) :
    Fin (leading + trailing) ⊕ Fin (n + 1) :=
  match h : passRole leading n trailing i with
  | .inl k => .inl ⟨k, passRole_inl h⟩
  | .inr k => .inr ⟨k, Nat.lt_succ_of_le (passRole_inr h)⟩

theorem passIndex_map (i : Fin (n + (leading + trailing) + 1)) :
    (passIndex leading trailing n i).map Fin.val Fin.val = passRole leading n trailing i := by
  unfold passIndex
  split
  · next h => exact h.symm
  · next h => exact h.symm

theorem passIndex_bijective : Function.Bijective (passIndex leading trailing n) := by
  rw [Fintype.bijective_iff_injective_and_card]
  constructor
  · intro i j h
    have hroles := congrArg (Sum.map Fin.val Fin.val) h
    rw [passIndex_map, passIndex_map] at hroles
    exact Fin.ext (passRole_injective (Nat.le_of_lt_succ i.isLt) (Nat.le_of_lt_succ j.isLt) hroles)
  · simp only [Fintype.card_fin, Fintype.card_sum]
    omega

/-- An identity for the ordinates that pass, and the matrix inside. -/
def passBlocks (leading trailing : ℕ) (inner : Matrix (Fin (m + 1)) (Fin (n + 1)) α) :
    Matrix (Fin (m + (leading + trailing) + 1)) (Fin (n + (leading + trailing) + 1)) α :=
  (Matrix.fromBlocks (1 : Matrix (Fin (leading + trailing)) (Fin _) α) 0 0 inner).submatrix
    (passIndex leading trailing m) (passIndex leading trailing n)

theorem roleEntry_map_val {k : ℕ} (coefficient : ℕ → ℕ → α) (x : Fin k ⊕ Fin (m + 1))
    (y : Fin k ⊕ Fin (n + 1)) :
    roleEntry coefficient (x.map Fin.val Fin.val) (y.map Fin.val Fin.val) =
      Matrix.fromBlocks (1 : Matrix (Fin k) (Fin k) α) 0 0
        (fun (i : Fin (m + 1)) (j : Fin (n + 1)) => coefficient i j) x y := by
  cases x with
  | inl k =>
    cases y with
    | inl l => exact if_congr Fin.ext_iff.symm rfl rfl
    | inr _ => rfl
  | inr _ =>
    cases y with
    | inl _ => rfl
    | inr _ => rfl

theorem StoredMatrix.passThrough_eq_ofMatrix {sub : HeldMatrix α} (hr : sub.numRow = m + 1)
    (hc : sub.numCol = n + 1) :
    passThrough leading sub trailing =
      .ok (.ofMatrix (passBlocks leading trailing (sub.toMatrix (m + 1) (n + 1)))) := by
  rw [passThrough_eq hr hc]
  refine congrArg Except.ok (congrArg (ofFn _ _) (funext fun i => funext fun j => ?_))
  rw [passEntry, ← passIndex_map, ← passIndex_map, roleEntry_map_val]
  rfl

end Entries

section Exact

variable {K : Type} [Field K] [LinearOrder K] {leading trailing m n k : ℕ}

theorem passBlocks_mul (a : Matrix (Fin (m + 1)) (Fin (k + 1)) K)
    (b : Matrix (Fin (k + 1)) (Fin (n + 1)) K) :
    passBlocks leading trailing a * passBlocks leading trailing b =
      passBlocks leading trailing (a * b) := by
  rw [passBlocks, passBlocks, passBlocks, ← Matrix.submatrix_mul _ _ _ _ _ passIndex_bijective,
    Matrix.fromBlocks_multiply]
  simp only [Matrix.one_mul, Matrix.zero_mul, Matrix.mul_zero, add_zero, zero_add]

theorem HeldMatrix.toMatrix_of_isIdentity {sub : HeldMatrix K} (hsub : sub.Consistent)
    (h : sub.isIdentity = true) (hr : sub.numRow = n) :
    sub.numCol = n ∧ sub.toMatrix n n = 1 := by
  subst hr
  rw [isIdentity] at h
  have hsquare : sub.numCol = sub.numRow := by
    have hshape := h
    rw [RowMajor.isIdentity, Bool.and_eq_true, beq_iff_eq] at hshape
    exact hshape.1.symm
  have hsize := hsub.1
  rw [hsquare] at hsize h
  refine ⟨hsquare, ?_⟩
  rw [toMatrix, hsquare]
  exact RowMajor.toMatrix_of_isIdentity hsize h

namespace StoredMatrix

/-- A product of matrices of any shapes passes through. -/
theorem passThrough_product {a b : HeldMatrix K} (har : a.numRow = m + 1) (hac : a.numCol = k + 1)
    (hbr : b.numRow = k + 1) (hbc : b.numCol = n + 1) :
    ∃ product x y z, a.product b = .ok product ∧ passThrough leading a trailing = .ok x ∧
      passThrough leading b trailing = .ok y ∧
      passThrough leading (.stored product) trailing = .ok z ∧ x.IsProduct y z := by
  refine ⟨_, _, _, _, HeldMatrix.product_eq_ofMatrix a b har hac hbr hbc,
    passThrough_eq_ofMatrix har hac, passThrough_eq_ofMatrix hbr hbc,
    passThrough_eq_ofMatrix (numRow_held_ofFn _) (numCol_held_ofFn _), ?_⟩
  rw [isProduct_iff, ofMatrix_mul, passBlocks_mul]
  exact congrArg (fun inner => Except.ok (ofMatrix (passBlocks leading trailing inner)))
    (toMatrix_ofMatrix _).symm

/-- Pass-throughs of a product are multiplied, that of an identity is one, and one around another is
a single one. Only the first of these needs exact arithmetic. -/
theorem passThrough_spec :
    (∀ {K : Type} [Field K] [LinearOrder K] (a b : HeldMatrix K) (leading trailing : ℕ),
      0 < a.numRow → 0 < a.numCol → b.numRow = a.numCol → 0 < b.numCol →
        ∃ product x y z, a.product b = .ok product ∧ passThrough leading a trailing = .ok x ∧
          passThrough leading b trailing = .ok y ∧
          passThrough leading (.stored product) trailing = .ok z ∧ x.IsProduct y z) ∧
    (∀ {α : Type} [Scalar α] (n leading trailing : ℕ),
      passThrough leading (.stored (.identity (n + 1) : StoredMatrix α)) trailing =
        .ok (.identity (n + (leading + trailing) + 1))) ∧
    (∀ {K : Type} [Field K] [LinearOrder K] (sub : HeldMatrix K) (leading trailing : ℕ),
      sub.Consistent → sub.isIdentity = true → 0 < sub.numRow →
        passThrough leading sub trailing = .ok (.identity (sub.numRow + (leading + trailing)))) ∧
    ∀ {α : Type} [Scalar α] (sub : HeldMatrix α) (leading trailing leading' trailing' : ℕ),
      0 < sub.numRow → 0 < sub.numCol →
        ∃ inner outer, passThrough leading sub trailing = .ok inner ∧
          passThrough leading' (.stored inner) trailing' = .ok outer ∧
          passThrough (leading + leading') sub (trailing + trailing') = .ok outer := by
  refine ⟨?_, ?_, ?_, ?_⟩
  · intro K _ _ a b leading trailing har hac hb hbc
    exact passThrough_product (Nat.succ_pred_eq_of_pos har).symm (Nat.succ_pred_eq_of_pos hac).symm
      (hb.trans (Nat.succ_pred_eq_of_pos hac).symm) (Nat.succ_pred_eq_of_pos hbc).symm
  · intro α _ n leading trailing
    apply passThrough_one (numRow_held_ofFn _) (numCol_held_ofFn _)
    funext i j
    exact (coefficient_ofFn _ i j).trans (if_congr Fin.ext_iff.symm rfl rfl)
  · intro K _ _ sub leading trailing hsub hidentity hpos
    obtain ⟨n, hn⟩ := Nat.exists_eq_succ_of_ne_zero hpos.ne'
    obtain ⟨hc, hone⟩ := HeldMatrix.toMatrix_of_isIdentity hsub hidentity hn
    rw [passThrough_one hn hc hone, hn, Nat.succ_eq_add_one, Nat.add_right_comm]
  · intro α _ sub leading trailing leading' trailing' hr hc
    have hr' := (Nat.succ_pred_eq_of_pos hr).symm
    have hc' := (Nat.succ_pred_eq_of_pos hc).symm
    obtain ⟨inner, hinner, hnested⟩ :=
      passThrough_nested leading trailing leading' trailing' hr' hc'
    exact ⟨inner, _, hinner, hnested.trans (passThrough_eq hr' hc'), passThrough_eq hr' hc'⟩

/-- A projection of the plane onto a line and an embedding of the line, with one ordinate before
and two behind. -/
theorem passThrough_spec_line :
    let a : HeldMatrix ℚ := .flat ⟨2, 3, #[1, 2, 3, 0, 1, 1]⟩
    let b : HeldMatrix ℚ := .flat ⟨3, 2, #[5, 0, 1, 1, 2, 1]⟩
    let one : HeldMatrix ℚ := .square 2 (.of2 1 0 0 1)
    (∃ product x y z, a.product b = .ok product ∧ passThrough 1 a 2 = .ok x ∧
      passThrough 1 b 2 = .ok y ∧ passThrough 1 (.stored product) 2 = .ok z ∧ x.IsProduct y z) ∧
    passThrough 1 one 2 = .ok (.identity 5) ∧
    ∃ inner outer, passThrough 1 a 2 = .ok inner ∧
      passThrough 3 (.stored inner) 4 = .ok outer ∧ passThrough 4 a 6 = .ok outer := by
  intro a b one
  have hone : one.Consistent := HeldMatrix.consistent_square _
  have hidentity : one.isIdentity = true := by decide
  exact ⟨passThrough_spec.1 a b 1 2 (by decide) (by decide) rfl (by decide),
    passThrough_spec.2.2.1 one 1 2 hone hidentity (by decide),
    passThrough_spec.2.2.2 a 1 2 3 4 (by decide) (by decide)⟩

end StoredMatrix

end Exact

end Georeferencing
