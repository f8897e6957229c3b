import Georeferencing.Proofs.Double
import Georeferencing.Proofs.Matrix.Grid
import Georeferencing.Proofs.Transform.Points

/-! # Points that identities leave unchanged

In doubles an identity matrix multiplies every ordinate but one by zero and adds it to each ordinate
of the image. That changes nothing as long as zero times the others is zero: an ordinate beside one
that is not finite is no longer a number. So an identity that multiplies by a matrix leaves unchanged
the points with finite ordinates only, those of one ordinate, and those with no number among
their ordinates.
-/

namespace Georeferencing

/-- The same point: as many ordinates, and each of them alike. -/
def SamePoint (q p : List Float) : Prop :=
  q.length = p.length ∧ ∀ i < p.length, Double.Like (q.getD i 0) (p.getD i 0)

/-- No ordinate spoils another one under multiplication by zero. -/
def Steady (p : List Float) : Prop :=
  p.length ≤ 1 ∨ (∀ i < p.length, Scalar.isFinite (p.getD i 0) = true) ∨
    ∀ i < p.length, Scalar.isNaN (p.getD i 0) = true

instance (p : List Float) : Decidable (Steady p) := inferInstanceAs (Decidable (_ ∨ _ ∨ _))

variable {p q r : List Float}

theorem SamePoint.refl (p : List Float) : SamePoint p p := ⟨rfl, fun _ _ => .refl _⟩

theorem SamePoint.trans (hrq : SamePoint r q) (hqp : SamePoint q p) : SamePoint r p := by
  constructor
  · rw [hrq.1, hqp.1]
  · intro i hi
    exact (hrq.2 i (hqp.1 ▸ hi)).trans (hqp.2 i hi)

theorem SamePoint.steady (h : SamePoint q p) (hp : Steady p) : Steady q := by
  obtain ⟨hlength, hlike⟩ := h
  rw [Steady, hlength]
  rcases hp with hp | hp | hp
  · exact .inl hp
  · exact .inr (.inl fun i hi => (hlike i hi).isFinite_eq.trans (hp i hi))
  · exact .inr (.inr fun i hi => (hlike i hi).isNaN_eq.trans (hp i hi))

/-- A point that is not steady has a number beside an ordinate that is not finite. -/
theorem exists_beside_of_not_steady (h : ¬ Steady p) :
    ∃ i < p.length, ∃ j < p.length, j ≠ i ∧ Scalar.isNaN (p.getD i 0) ≠ true ∧
      Scalar.isFinite (p.getD j 0) ≠ true := by
  rw [Steady, not_or, not_or, not_le] at h
  push Not at h
  obtain ⟨hlength, ⟨j, hj, hinfinite⟩, i, hi, hnumber⟩ := h
  by_cases hji : j = i
  · subst hji
    -- The one ordinate is infinite: another one is either the number or what is not finite.
    obtain ⟨k, hk, hkj⟩ : ∃ k < p.length, k ≠ j := by
      by_cases hzero : j = 0
      · exact ⟨1, hlength, by omega⟩
      · exact ⟨0, by omega, Ne.symm hzero⟩
    by_cases hfinite : Scalar.isFinite (p.getD k 0) = true
    · refine ⟨k, hk, j, hj, hkj.symm, ?_, hinfinite⟩
      rw [Double.isNaN_of_isFinite hfinite]
      simp
    · exact ⟨j, hj, k, hk, hkj, hnumber, hfinite⟩
  · exact ⟨i, hi, j, hj, hji, hnumber, hinfinite⟩

/-- What an identity makes of a point, `multiplies` telling whether it multiplies by a matrix. -/
structure Smears (multiplies : Prop) (p q : List Float) : Prop where
  length : q.length = p.length
  nan : ∀ i < p.length, Scalar.isNaN (p.getD i 0) = true → Scalar.isNaN (q.getD i 0) = true
  steady : Steady p → SamePoint q p
  spoiled : multiplies → ¬ Steady p →
    ∃ i < p.length, Scalar.isNaN (p.getD i 0) ≠ true ∧ Scalar.isNaN (q.getD i 0) = true
  kept : ¬ multiplies → q = p

theorem Smears.of_eq (p : List Float) : Smears False p p where
  length := rfl
  nan _ _ h := h
  steady _ := .refl p
  spoiled h := h.elim
  kept _ := rfl

theorem Smears.trans {first second : Prop} (hpq : Smears first p q) (hqr : Smears second q r) :
    Smears (first ∨ second) p r where
  length := hqr.length.trans hpq.length
  nan i hi h := hqr.nan i (hpq.length ▸ hi) (hpq.nan i hi h)
  steady h := (hqr.steady ((hpq.steady h).steady h)).trans (hpq.steady h)
  spoiled h hp := by
    by_cases hfirst : first
    · obtain ⟨i, hi, hnumber, hnan⟩ := hpq.spoiled hfirst hp
      exact ⟨i, hi, hnumber, hqr.nan i (hpq.length ▸ hi) hnan⟩
    · obtain rfl := hpq.kept hfirst
      exact hqr.spoiled (h.resolve_left hfirst) hp
  kept h := (hqr.kept fun hsecond => h (.inr hsecond)).trans (hpq.kept fun hfirst => h (.inl hfirst))

/-- When the point is left unchanged. -/
theorem Smears.samePoint_iff {multiplies : Prop} (h : Smears multiplies p q) :
    SamePoint q p ↔ ¬ multiplies ∨ Steady p := by
  constructor
  · intro hsame
    by_contra hspoiled
    rw [not_or, not_not] at hspoiled
    obtain ⟨i, hi, hnumber, hnan⟩ := h.spoiled hspoiled.1 hspoiled.2
    exact hnumber ((hsame.2 i hi).isNaN_eq.symm.trans hnan)
  · rintro (hmultiplies | hsteady)
    · rw [h.kept hmultiplies]
      exact .refl p
    · exact h.steady hsteady

/-- The last row of an identity is that of an affine matrix. -/
theorem Grid.IsIdentity.isAffine {α : Type} [Scalar α] {g : Grid α} (h : g.IsIdentity)
    (hne : g.numRow ≠ 0) : g.IsAffine := by
  obtain ⟨hsquare, hcells⟩ := h
  refine ⟨hsquare, hne, fun j hj => ?_⟩
  have hcell := hcells (g.numRow - 1) (by omega) j hj
  have hlast : g.numRow - 1 = j ↔ j + 1 = g.numCol := by omega
  rwa [if_congr hlast rfl rfl] at hcell

namespace Projective

/-- What passes for the identity is affine, with ones on the diagonal and zeros elsewhere. -/
theorem coefficients_of_isIdentity {α : Type} [Scalar α] {t : Projective α} {n m : ℕ}
    (h : t.HasShape n m) (hid : t.isIdentity = true) :
    m = n ∧ t.isAffine = true ∧ ∀ i ≤ n, ∀ j ≤ n,
      (t.matrix.elements.getD (i * (n + 1) + j) 0 == if i = j then 1 else 0) = true := by
  have hgrid := StoredMatrix.represents_toGrid h.consistent
  have hrow : t.matrix.toGrid.numRow = m + 1 := h.numRow
  have hcol : t.matrix.toGrid.numCol = n + 1 := h.numCol
  rw [isIdentity, hgrid.isIdentity, decide_eq_true_iff] at hid
  have haffine := hid.isAffine (by omega)
  obtain ⟨hsquare, hcells⟩ := hid
  obtain rfl : m = n := by omega
  refine ⟨rfl, ?_, fun i hi j hj => ?_⟩
  · rw [isAffine, hgrid.isAffine, decide_eq_true_iff]
    exact haffine
  · rw [← h.numCol]
    exact hcells i (by omega) j (by omega)

section Rows

variable {t : Projective Float} {n i j : ℕ}

theorem getD_image (h : t.HasShape n n) (hid : t.isIdentity = true) (hi : i < n) :
    (t.image p).getD i 0 = t.rowProduct i p := by
  rw [image, (coefficients_of_isIdentity h hid).2.1, if_pos rfl, h.target]
  simp [hi]

/-- The terms of a row of an identity. -/
theorem rowProduct_eq_terms (h : t.HasShape n n) (hp : p.length = n) (hi : i < n) :
    t.rowProduct i p = Scalar.sum ((List.range (n + 1)).map fun k =>
      t.matrix.elements.getD (i * (n + 1) + k) 0 * (p ++ [1]).getD k 0) :=
  rowProduct_eq_sum Double.mul_comm Double.mul_one h hp ⟨i, hi.trans (Nat.lt_succ_self n)⟩

/-- The coefficients of an identity beside the diagonal. -/
theorem isZero_coefficient (h : t.HasShape n n) (hid : t.isIdentity = true) (hi : i ≤ n)
    (hj : j ≤ n) (hji : j ≠ i) :
    Double.IsZero (t.matrix.elements.getD (i * (n + 1) + j) 0) := by
  have hcell := (coefficients_of_isIdentity h hid).2.2 i hi j hj
  rw [if_neg hji.symm] at hcell
  exact Double.isZero_of_beq hcell

/-- An ordinate is left alone if all others are finite. -/
theorem rowProduct_like (h : t.HasShape n n) (hid : t.isIdentity = true) (hp : p.length = n)
    (hi : i < n) (hfinite : ∀ k < n, k ≠ i → Scalar.isFinite (p.getD k 0) = true) :
    Double.Like (t.rowProduct i p) (p.getD i 0) := by
  have hone : t.matrix.elements.getD (i * (n + 1) + i) 0 = 1 := by
    have hcell := (coefficients_of_isIdentity h hid).2.2 i hi.le i hi.le
    rw [if_pos rfl] at hcell
    exact Double.eq_one_of_beq hcell
  have hothers : ∀ k < n + 1, k ≠ i → Scalar.isFinite ((p ++ [1]).getD k 0) = true := by
    intro k hk hki
    rcases Nat.lt_succ_iff_lt_or_eq.mp hk with hkn | rfl
    · rw [List.getD_append _ _ _ _ (hp ▸ hkn)]
      exact hfinite k hkn hki
    · rw [List.getD_append_right _ _ _ _ hp.le, hp, Nat.sub_self]
      decide +kernel
  have hlike := Double.sum_like (hi.trans (Nat.lt_succ_self n)) fun k hk hki =>
    (isZero_coefficient h hid hi.le (Nat.le_of_lt_succ hk) hki).mul (hothers k hk hki)
  rw [rowProduct_eq_terms h hp hi]
  rwa [hone, Double.mul_comm, Double.mul_one, List.getD_append _ _ _ _ (hp ▸ hi)] at hlike

/-- An ordinate beside one that is not finite is no longer a number. -/
theorem isNaN_rowProduct (h : t.HasShape n n) (hid : t.isIdentity = true) (hp : p.length = n)
    (hi : i < n) (hj : j < n) (hji : j ≠ i) (hinfinite : Scalar.isFinite (p.getD j 0) ≠ true) :
    Scalar.isNaN (t.rowProduct i p) = true := by
  rw [rowProduct_eq_terms h hp hi]
  apply Double.isNaN_sum (hj.trans (Nat.lt_succ_self n))
  apply (isZero_coefficient h hid hi.le hj.le hji).isNaN_mul
  rwa [List.getD_append _ _ _ _ (hp ▸ hj)]

/-- An ordinate is left alone, or another one that is not finite spoils it. -/
theorem like_or_spoiled (h : t.HasShape n n) (hid : t.isIdentity = true) (hp : p.length = n)
    (hi : i < n) :
    Double.Like (t.rowProduct i p) (p.getD i 0) ∨
      (Scalar.isNaN (t.rowProduct i p) = true ∧
        ∃ j < n, j ≠ i ∧ Scalar.isFinite (p.getD j 0) ≠ true) := by
  by_cases hfinite : ∀ k < n, k ≠ i → Scalar.isFinite (p.getD k 0) = true
  · exact .inl (rowProduct_like h hid hp hi hfinite)
  · push Not at hfinite
    obtain ⟨j, hj, hji, hinfinite⟩ := hfinite
    exact .inr ⟨isNaN_rowProduct h hid hp hi hj hji hinfinite, j, hj, hji, hinfinite⟩

/-- What an identity matrix makes of a point. -/
theorem smears_image (h : t.HasShape n n) (hid : t.isIdentity = true) (hp : p.length = n) :
    Smears True p (t.image p) where
  length := by rw [length_image, h.target, hp]
  nan i hi hnan := by
    rw [hp] at hi
    rw [getD_image h hid hi]
    rcases like_or_spoiled h hid hp hi with hlike | ⟨hspoiled, -⟩
    · exact hlike.isNaN_eq.trans hnan
    · exact hspoiled
  steady hsteady := by
    constructor
    · rw [length_image, h.target, hp]
    · intro i hi
      rw [hp] at hi
      rw [getD_image h hid hi]
      rcases like_or_spoiled h hid hp hi with hlike | ⟨hspoiled, j, hj, hji, hinfinite⟩
      · exact hlike
      · rw [Steady, hp] at hsteady
        rcases hsteady with hlength | hfinite | hnan
        · omega
        · exact absurd (hfinite j hj) hinfinite
        · exact .inr ⟨hspoiled, hnan i hi⟩
  spoiled _ hspoiled := by
    obtain ⟨i, hi, j, hj, hji, hnumber, hinfinite⟩ := exists_beside_of_not_steady hspoiled
    refine ⟨i, hi, hnumber, ?_⟩
    rw [hp] at hi hj
    rw [getD_image h hid hi]
    exact isNaN_rowProduct h hid hp hi hj hji hinfinite
  kept h := absurd trivial h

end Rows

end Projective

namespace Transform

theorem tracksIdentities_smears : TracksIdentities Smears where
  refl := .of_eq
  trans := .trans
  linear h hid hp := by
    obtain ⟨rfl, -, -⟩ := Projective.coefficients_of_isIdentity h hid
    exact Projective.smears_image h hid hp

/-- A transform that passes for the identity succeeds on every point of its dimension. It leaves the
point unchanged just if it does not multiply by a matrix or no ordinate spoils another; otherwise
some ordinate that was a number is none any more. -/
theorem applyPoint_unchanged_iff (t : Transform Float) (p : List Float) (h : t.WellFormed)
    (hid : t.isIdentity = true) (hp : p.length = t.source) :
    ∃ q, t.applyPoint p = .ok q ∧ q.length = p.length ∧
      (SamePoint q p ↔ ¬ t.Multiplies ∨ Steady p) ∧
      (¬ SamePoint q p → ∃ i < p.length,
        Scalar.isNaN (p.getD i 0) ≠ true ∧ Scalar.isNaN (q.getD i 0) = true) := by
  obtain ⟨q, hq, hsmears⟩ :=
    exists_applyPoint_of_isIdentity tracksIdentities_smears t p h hid hp
  refine ⟨q, hq, hsmears.length, hsmears.samePoint_iff, ?_⟩
  intro hchanged
  rw [hsmears.samePoint_iff, not_or, not_not] at hchanged
  exact hsmears.spoiled hchanged.1 hchanged.2

/-- An infinite ordinate spoils the one beside it, even where nothing should change. -/
theorem applyPoint_unchanged_iff_plane :
    let identity : Transform Float := .linear (.identity 2)
    let pole : List Float := [Scalar.infinity, 1]
    identity.WellFormed ∧ identity.isIdentity = true ∧ ¬ Steady pole ∧ Steady [3, 1] ∧
      (∃ q, identity.applyPoint pole = .ok q ∧ ¬ SamePoint q pole) ∧
      ∃ q, identity.applyPoint [3, 1] = .ok q ∧ SamePoint q [3, 1] := by
  intro identity pole
  have hwell : identity.WellFormed := by
    rw [WellFormed]
    exact ⟨rfl, rfl, rfl⟩
  have hid : identity.isIdentity = true := by decide +kernel
  have hpole : ¬ Steady pole := by decide +kernel
  have hfinite : Steady [3, 1] := by decide +kernel
  obtain ⟨q, hq, -, hqpole, -⟩ := applyPoint_unchanged_iff identity pole hwell hid rfl
  obtain ⟨r, hr, -, hrpoint, -⟩ := applyPoint_unchanged_iff identity [3, 1] hwell hid rfl
  refine ⟨hwell, hid, hpole, hfinite, ⟨q, hq, ?_⟩, r, hr, hrpoint.mpr (.inr hfinite)⟩
  rw [hqpole, not_or, not_not]
  exact ⟨.linear _, hpole⟩

end Transform

end Georeferencing
