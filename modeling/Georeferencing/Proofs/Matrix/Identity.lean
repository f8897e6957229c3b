import Georeferencing.Matrix.Identity
import Georeferencing.Proofs.Double.Comparison
import Georeferencing.Proofs.Matrix.Copies
import Georeferencing.Proofs.Matrix.Writing

/-! # Tests for the identity

A matrix is tested for the identity in three ways: each small size looks at its own coefficients, as
it does to tell whether it is affine, a list is tested at its places, and a test with a tolerance
bounds what differs from the identity at these places. The last one is a comparison with an identity
that has been built. It does not matter that a comparison also accepts equal infinities and values
that are not numbers, since an identity has neither.
-/

namespace Georeferencing

section Squares

variable {α : Type} [Scalar α]

namespace Square

/-- Tested at the places of its list, a square is tested at each row and column. -/
theorem isIdentity_iff {n : ℕ} (m : Square n α) :
    RowMajor.isIdentity n n m.elements.toArray = true ↔
      ∀ i j : Fin n, (m i j == if i = j then 1 else 0) = true := by
  obtain ⟨cell, hcell, helements⟩ := Block.exists_cell m
  have htest := Grid.isIdentity_elements (⟨n, n, cell⟩ : Grid α)
  rw [helements, htest, decide_eq_true_iff, Grid.IsIdentity]
  simp only [true_and, hcell, Fin.forall_iff, Fin.mk.injEq]

theorem isAffine_iff {n : ℕ} (m : Square (n + 1) α) :
    RowMajor.isAffine (n + 1) (n + 1) m.elements.toArray = true ↔
      ∀ j : Fin (n + 1), (m (Fin.last n) j == if j = Fin.last n then 1 else 0) = true := by
  obtain ⟨cell, hcell, helements⟩ := Block.exists_cell m
  have htest := Grid.isAffine_elements (⟨n + 1, n + 1, cell⟩ : Grid α)
  rw [helements, htest, decide_eq_true_iff, Grid.IsAffine]
  simp [hcell, Fin.forall_iff, Fin.ext_iff]

variable {n : ℕ} (m : Square n α)

theorem testAffine_eq : m.testAffine = RowMajor.isAffine n n m.elements.toArray := by
  unfold testAffine
  split
  case h_5 => rfl
  all_goals
    rw [Bool.eq_iff_iff, isAffine_iff]
    simp [Fin.forall_fin_succ, and_assoc]

/-- No size forgets a coefficient, or asks for another value of it. -/
theorem testIdentity_eq : m.testIdentity = RowMajor.isIdentity n n m.elements.toArray := by
  unfold testIdentity
  split
  case h_5 => rfl
  all_goals
    rw [Bool.eq_iff_iff, isIdentity_iff]
    simp [testAffine, Fin.forall_fin_succ, and_assoc]

end Square

/-- Operations ask stored matrices at the end of their list, which is what the storage tests. -/
theorem StoredMatrix.testAffine_eq (m : StoredMatrix α) : m.testAffine = m.isAffine := by
  cases m with
  | small n hn m => exact m.testAffine_eq
  | flat m => rfl

theorem HeldMatrix.testAffine_eq (m : HeldMatrix α) : m.testAffine = m.isAffine := by
  cases m with
  | stored m => exact m.testAffine_eq
  | square n m => exact m.testAffine_eq
  | flat m => rfl
  | table m => rfl
  | foreign m => rfl

theorem StoredMatrix.testIdentity_eq (m : StoredMatrix α) : m.testIdentity = m.isIdentity := by
  cases m with
  | small n hn m => exact m.testIdentity_eq
  | flat m => rfl

theorem HeldMatrix.testIdentity_eq (m : HeldMatrix α) : m.testIdentity = m.isIdentity := by
  cases m with
  | stored m => exact m.testIdentity_eq
  | square n m => exact m.testIdentity_eq
  | flat m => rfl
  | table m => rfl
  | foreign m => rfl

end Squares

namespace StoredMatrix

variable {α : Type} [Scalar α]

theorem represents_identity (n : ℕ) :
    Represents (identity n : StoredMatrix α) ⟨n, n, fun i j => if i = j then 1 else 0⟩ :=
  represents_ofFn n n fun i j => if i = j then 1 else 0

theorem getElem?_identity {n k : ℕ} (hk : k < n * n) :
    (identity n : StoredMatrix α).elements[k]? = some (if k / n = k % n then 1 else 0) := by
  have hn : 0 < n := pos_of_lt_mul hk
  have hplace := Grid.getElem?_elements (g := ⟨n, n, fun i j => if i = j then (1 : α) else 0⟩)
    (Nat.div_lt_of_lt_mul hk) (Nat.mod_lt k hn)
  rw [(represents_identity n).elements]
  rwa [Nat.div_add_mod'] at hplace

/-- Ones that are written into zeros make an identity. -/
theorem carryOut_planDiagonal {n : ℕ} {m : StoredMatrix α} (hm : m.Canonical)
    (h : Represents m ⟨n, n, fun _ _ => 0⟩) : m.carryOut (planDiagonal n) = .ok (identity n) := by
  apply carryOut_eq (f := fun i j => if i = j then 1 else 0) hm h
  · apply planWrites_map fun _ _ => rfl
    intro k hk
    have hlt := List.mem_range.mp hk
    exact ⟨hlt, hlt, (if_pos rfl).symm⟩
  · intro i hi j hj
    by_cases hij : i = j
    · subst hij
      exact .inr (planCovers_map (List.mem_range.mpr hi) rfl)
    · exact .inl (if_neg hij).symm

theorem buildIdentity_eq (n : ℕ) : buildIdentity n = .ok (identity n : StoredMatrix α) := by
  unfold buildIdentity
  split
  case h_1 => rfl
  case h_2 => rfl
  case h_3 => rfl
  case h_4 => exact carryOut_planDiagonal trivial (represents_ofFn 4 4 fun _ _ => 0)
  case h_5 hone htwo hthree hfour =>
    change (flat (.ofBlock (.zero n n))).carryOut (planDiagonal n) = _
    have hflat : ¬ (n = n ∧ IsSmall n) := by
      rintro ⟨-, hpos, hle⟩
      interval_cases n <;> contradiction
    exact carryOut_planDiagonal ⟨FlatMatrix.consistent_ofBlock _, hflat⟩
      (represents_ofBlock fun i j => Block.entry_ofFn _ i j)

end StoredMatrix

/-! ## A double beside one that is finite -/

namespace Double

variable {e d tolerance : Float}

theorem equalWithin_iff_abs_sub_le (hd : Scalar.isFinite d = true) :
    Scalar.equalWithin tolerance false e d = true ↔ Scalar.abs (e - d) ≤ tolerance := by
  have hspecial : ¬ Scalar.sameSpecial e d = true := by
    intro h
    rcases sameSpecial_iff.mp (sameSpecial_symm h) with ⟨hnan, -⟩ | ⟨hinfinite, -⟩
    · exact Bool.false_ne_true ((isNaN_of_isFinite hd).symm.trans hnan)
    · rw [Scalar.isInfinite, hd, Bool.not_true, Bool.and_false] at hinfinite
      exact Bool.false_ne_true hinfinite
  rw [equalWithin_iff_le_or, or_iff_left hspecial, tolerance_absolute]

theorem isFinite_unit (diagonal : Prop) [Decidable diagonal] :
    Scalar.isFinite (if diagonal then 1 else 0 : Float) = true := by
  split
  · decide +kernel
  · exact isFinite_zero

/-- A coefficient beside that of an identity, from which a zero need not be subtracted. -/
theorem equalWithin_unit_iff (tolerance e : Float) (diagonal : Prop) [Decidable diagonal] :
    Scalar.equalWithin tolerance false e (if diagonal then 1 else 0) = true ↔
      Scalar.abs (if diagonal then e - 1 else e) ≤ tolerance := by
  rw [equalWithin_iff_abs_sub_le (isFinite_unit diagonal)]
  split
  · rfl
  · rw [Double.sub_zero]

theorem beq_unit_iff (e : Float) (diagonal : Prop) [Decidable diagonal] :
    (e == if diagonal then 1 else 0) = true ↔
      Scalar.abs (if diagonal then e - 1 else e) ≤ 0 := by
  have hnan : ¬ Scalar.isNaN (if diagonal then 1 else 0 : Float) = true := by
    rw [isNaN_of_isFinite (isFinite_unit diagonal)]
    exact Bool.false_ne_true
  rw [← equalWithin_unit_iff, equalWithin_zero_iff, Like, or_iff_left fun h => hnan h.2]

end Double

namespace HeldMatrix

variable {m : HeldMatrix Float} {n : ℕ} {tolerance tolerance' : Float}

/-- What is asked of each listed coefficient, where an identity has a coefficient too. -/
theorem equalWithin_identity_iff (hr : m.numRow = n) (hc : m.numCol = n) (h : m.Complete) :
    m.equalWithin tolerance false (.stored (.identity n)) = true ↔
      ∀ (k : ℕ) (e : Float), m.elements[k]? = some e →
        Scalar.equalWithin tolerance false e (if k / n = k % n then 1 else 0) = true := by
  have hshape : numRow (.stored (.identity n) : HeldMatrix Float) = n ∧
      numCol (.stored (.identity n) : HeldMatrix Float) = n :=
    (StoredMatrix.represents_identity n).shape
  have hplace : ∀ {k : ℕ} {e : Float}, m.elements[k]? = some e →
      (stored (.identity n)).elements[k]? = some (if k / n = k % n then (1 : Float) else 0) := by
    intro k e he
    have hlt := (Array.getElem?_eq_some_iff.mp he).1
    rw [h, hr, hc] at hlt
    exact StoredMatrix.getElem?_identity hlt
  rw [equalWithin_iff_listed, CloseWhereListed, hr, hc, hshape.1, hshape.2]
  simp only [true_and]
  apply forall₂_congr
  intro k e
  constructor
  · intro hclose he
    exact hclose _ he (hplace he)
  · intro hclose d he hd
    cases Option.some.inj ((hplace he).symm.trans hd)
    exact hclose he

/-- Within any tolerance, the test for the identity is the comparison with it. -/
theorem isIdentityWithin_eq_equalWithin (tolerance : Float) (hr : m.numRow = n)
    (hc : m.numCol = n) (h : m.Complete) :
    m.isIdentityWithin tolerance = m.equalWithin tolerance false (.stored (.identity n)) := by
  rw [Bool.eq_iff_iff, isIdentityWithin_iff_listed, equalWithin_identity_iff hr hc h,
    UnitWhereListed, hr, hc, and_iff_right rfl]
  exact forall₂_congr fun k e => imp_congr_right fun _ =>
    (Double.equalWithin_unit_iff tolerance e _).symm

/-- What is listed is tested for the very values of the identity. -/
theorem isIdentity_iff_listed :
    m.isIdentity = true ↔ m.numRow = m.numCol ∧ ∀ (k : ℕ) (e : Float), m.elements[k]? = some e →
      (e == if k / m.numCol = k % m.numCol then 1 else 0) = true := by
  rw [isIdentity, RowMajor.isIdentity, Bool.and_eq_true, beq_iff_eq, List.all_eq_true]
  apply and_congr_right
  intro hsquare
  simp only [Prod.forall, List.mem_zipIdx_iff_getElem?, Array.getElem?_toList,
    RowMajor.isDiagonal, beq_iff_eq (α := ℕ)]
  exact forall_comm

/-- If nothing is tolerated, values of the identity are asked for, zeros of either sign. -/
theorem isIdentityWithin_zero (m : HeldMatrix Float) : m.isIdentityWithin 0 = m.isIdentity := by
  rw [Bool.eq_iff_iff, isIdentityWithin_iff_listed, isIdentity_iff_listed, UnitWhereListed]
  exact and_congr_right fun _ => forall₂_congr fun k e => imp_congr_right fun _ =>
    (Double.beq_unit_iff e _).symm

theorem isIdentityWithin_mono (hle : tolerance ≤ tolerance')
    (h : m.isIdentityWithin tolerance = true) : m.isIdentityWithin tolerance' = true := by
  rw [isIdentityWithin_iff_listed] at h ⊢
  exact ⟨h.1, fun k e he => Double.le_trans (h.2 k e he) hle⟩

theorem tests_of_not_square (tolerance : Float) (n : ℕ) (h : m.numRow ≠ m.numCol) :
    m.isIdentityWithin tolerance = false ∧
      m.equalWithin tolerance false (.stored (.identity n)) = false ∧ m.isIdentity = false := by
  have hshape := (StoredMatrix.represents_identity (α := Float) n).shape
  refine ⟨?_, ?_, ?_⟩
  · rw [← Bool.not_eq_true, isIdentityWithin_iff_listed]
    exact fun hwithin => h hwithin.1
  · rw [← Bool.not_eq_true, equalWithin_iff_listed]
    exact fun hclose => h ((hclose.1.trans hshape.1).trans (hclose.2.1.trans hshape.2).symm)
  · rw [← Bool.not_eq_true, isIdentity_iff_listed]
    exact fun hidentity => h hidentity.1

/-- The test for the identity within a tolerance is the comparison with an identity that has been
built, and without a tolerance the test of the holder. What a tolerance accepts, a larger one does,
and none accepts a matrix that is not square. -/
theorem isIdentityWithin_spec (m : HeldMatrix Float) :
    (∀ n, m.numRow = n → m.numCol = n → m.Complete →
      ∃ identity : StoredMatrix Float, StoredMatrix.buildIdentity n = .ok identity ∧
        (∀ tolerance : Float,
          m.isIdentityWithin tolerance = m.equalWithin tolerance false (.stored identity)) ∧
        m.isIdentityWithin 0 = m.testIdentity ∧
        m.equalWithin 0 false (.stored identity) = m.testIdentity) ∧
    (∀ tolerance tolerance' : Float, tolerance ≤ tolerance' →
      m.isIdentityWithin tolerance = true → m.isIdentityWithin tolerance' = true) ∧
    (m.numRow ≠ m.numCol → ∀ tolerance : Float, m.isIdentityWithin tolerance = false ∧
      m.testIdentity = false ∧ ∀ (n : ℕ) (identity : StoredMatrix Float),
        StoredMatrix.buildIdentity n = .ok identity →
          m.equalWithin tolerance false (.stored identity) = false) := by
  rw [testIdentity_eq]
  refine ⟨fun n hr hc h => ?_, fun _ _ hle => isIdentityWithin_mono hle, fun h tolerance => ?_⟩
  · have hwithin := fun tolerance => isIdentityWithin_eq_equalWithin tolerance hr hc h
    exact ⟨.identity n, StoredMatrix.buildIdentity_eq n, hwithin, isIdentityWithin_zero m,
      (hwithin 0).symm.trans (isIdentityWithin_zero m)⟩
  · have hrefused := fun n => tests_of_not_square tolerance n h
    refine ⟨(hrefused 0).1, (hrefused 0).2.2, fun n identity hbuilt => ?_⟩
    cases Except.ok.inj ((StoredMatrix.buildIdentity_eq n).symm.trans hbuilt)
    exact (hrefused n).2.1

/-- An infinity is accepted by an infinite tolerance only, and by no tolerance that is not a number;
minus zero is accepted by a zero. -/
theorem isIdentityWithin_spec_special :
    let infinite : HeldMatrix Float := .square 1 (.of1 Scalar.infinity)
    let signed : HeldMatrix Float := .stored (.small 2 (by decide) (.of2 1 (-0) 0 1))
    let wide : HeldMatrix Float := .flat ⟨1, 2, #[1, 0]⟩
    (infinite.equalWithin Scalar.infinity false (.stored (.identity 1)) = true ∧
      infinite.isIdentityWithin Scalar.infinity = true ∧
      infinite.isIdentityWithin Scalar.nan = false ∧ infinite.testIdentity = false) ∧
    (signed.isIdentityWithin 0 = true ∧ signed.isIdentityWithin 1 = true ∧
      signed.isIdentityWithin (-1) = false) ∧
    wide.isIdentityWithin Scalar.infinity = false := by
  intro infinite signed wide
  obtain ⟨identity, hbuilt, hwithin, -, -⟩ :=
    (isIdentityWithin_spec infinite).1 1 rfl rfl (by decide)
  cases hbuilt
  obtain ⟨-, -, -, hzero, -⟩ := (isIdentityWithin_spec signed).1 2 rfl rfl (by decide)
  have hsigned : signed.isIdentityWithin 0 = true := hzero.trans (by decide +kernel)
  have hinfinite : infinite.isIdentityWithin Scalar.infinity = true := by decide +kernel
  refine ⟨⟨(hwithin _).symm.trans hinfinite, hinfinite, ?_, ?_⟩, ⟨hsigned, ?_, ?_⟩, ?_⟩
  · decide +kernel
  · decide +kernel
  · exact (isIdentityWithin_spec signed).2.1 0 1 (by decide +kernel) hsigned
  · decide +kernel
  · exact ((isIdentityWithin_spec wide).2.2 (by decide) _).1

end HeldMatrix

end Georeferencing
