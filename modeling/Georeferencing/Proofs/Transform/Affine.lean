import Georeferencing.Proofs.Matrix.Affine
import Georeferencing.Proofs.Transform.Refusals
import Georeferencing.Proofs.Transform.Undoing

/-! # Affine transforms of one dimension

An affine matrix maps points without a division. Concatenated, such matrices stay single: each of
them is multiplied into the one before it, so that at most one matrix is kept, and it is affine
again. The same holds of its inverse, if it has one.
-/

namespace Georeferencing

open HeldMatrix

variable {K : Type} [Field K] [LinearOrder K] {n : ℕ}

namespace Projective

variable {t u first second : Projective K}

/-- An affine matrix that maps points of dimension `n` to such points by its rows alone. -/
structure DivisionFree (n : ℕ) (t : Projective K) : Prop where
  shape : t.HasShape n n
  affine : t.isAffine = true
  rows : ∀ src dst count, t.applyBatch src dst count =
    .pointwise n n (fun point => .ok ((List.range n).map (t.rowProduct · point))) src dst count

theorem divisionFree_iff : t.DivisionFree n ↔ (stored t.matrix).AffineOfSize (n + 1) := by
  constructor
  · intro h
    have hcomplete : (stored t.matrix).Complete := h.shape.consistent
    exact ⟨hcomplete, h.shape.numRow, h.affine⟩
  · intro h
    have hshape : t.HasShape n n := ⟨h.numRow, h.numCol, h.complete⟩
    have haffine : t.isAffine = true := h.affine
    refine ⟨hshape, haffine, fun src dst count => ?_⟩
    simp only [applyBatch, image, haffine, if_true, hshape.source, hshape.target]

theorem divisionFree_of_isAffine (h : t.HasShape n n) (haffine : t.isAffine = true) :
    t.DivisionFree n :=
  divisionFree_iff.mpr ⟨h.consistent, h.numRow, haffine⟩

/-- A matrix that can be held makes a transform if it is affine. -/
theorem exists_divisionFree {m : HeldMatrix K} (h : m.AffineOfSize (n + 1)) :
    ∃ t, ofMatrix m.toStored = .ok t ∧ t.DivisionFree n := by
  obtain ⟨hrow, hcol, helements⟩ := toStored_of_complete h.complete
  have hstored := h.of_elements (b := stored m.toStored) hrow hcol helements
  have hrow' : m.toStored.numRow = n + 1 := hstored.numRow
  have hcol' : m.toStored.numCol = n + 1 := hstored.numCol
  exact ⟨⟨m.toStored⟩, if_neg (by omega), divisionFree_iff.mpr hstored⟩

theorem divisionFree_identity (n : ℕ) : (identity n : Projective K).DivisionFree n := by
  rw [divisionFree_iff, identity, StoredMatrix.identity_eq]
  exact AffineOfSize.ofMatrix endsInUnit_one

theorem DivisionFree.mul {product : StoredMatrix K} (hfirst : first.DivisionFree n)
    (hsecond : second.DivisionFree n)
    (h : second.matrix.mul (.stored first.matrix) = .ok product) :
    DivisionFree n ⟨product⟩ := by
  rw [divisionFree_iff] at hfirst hsecond ⊢
  obtain ⟨x, hx, haffine⟩ := hsecond.mul hfirst
  obtain rfl : x = product := Except.ok.inj (hx.symm.trans h)
  exact haffine

theorem DivisionFree.inverse [IsStrictOrderedRing K] (h : t.DivisionFree n)
    (hu : t.inverse = .ok u) : u.DivisionFree n := by
  obtain ⟨x, hx, hux⟩ := bind_eq_ok.mp hu
  cases hux
  rw [divisionFree_iff] at h ⊢
  exact h.inverse hx

end Projective

namespace Transform

open Projective

variable {t : Transform K} {steps kept : List (Transform K)}

/-- A single affine matrix that maps points of dimension `n` to such points. -/
def IsAffineMatrix (n : ℕ) (t : Transform K) : Prop := ∃ u, t = linear u ∧ u.DivisionFree n

theorem isAffineMatrix_linear {u : Projective K} :
    (linear u).IsAffineMatrix n ↔ u.DivisionFree n := by
  constructor
  · rintro ⟨_, ⟨⟩, h⟩
    exact h
  · intro h
    exact ⟨u, rfl, h⟩

namespace IsAffineMatrix

theorem source (h : t.IsAffineMatrix n) : t.source = n := by
  obtain ⟨u, rfl, hu⟩ := h
  exact hu.shape.source

theorem target (h : t.IsAffineMatrix n) : t.target = n := by
  obtain ⟨u, rfl, hu⟩ := h
  exact hu.shape.target

theorem composable (h : t.IsAffineMatrix n) : t.Composable := by
  obtain ⟨u, rfl, hu⟩ := h
  rw [composable_linear, hu.shape.numRow, hu.shape.numCol]
  exact ⟨n.succ_pos, n.succ_pos⟩

theorem inverse [IsStrictOrderedRing K] {v : Transform K} (h : t.IsAffineMatrix n)
    (hv : t.inverse = .ok v) : v.IsAffineMatrix n := by
  obtain ⟨u, rfl, hu⟩ := h
  rw [Transform.inverse] at hv
  obtain ⟨w, hw, hvw⟩ := bind_eq_ok.mp hv
  cases hvw
  exact isAffineMatrix_linear.mpr (hu.inverse (TransformError.ofMatrix_eq_ok.mp hw))

/-- Of matrices alone at most one is kept, since no two of them are kept in a row. -/
theorem ofKept (hkept : ∀ step ∈ kept, step.IsAffineMatrix n) (h : Simplified kept) :
    (ofKept n kept).IsAffineMatrix n := by
  match kept with
  | [] => exact isAffineMatrix_linear.mpr (divisionFree_identity n)
  | [step] => exact hkept step (List.mem_singleton_self _)
  | first :: second :: rest =>
    obtain ⟨u, rfl, -⟩ := hkept first (by simp)
    obtain ⟨v, rfl, -⟩ := hkept second (by simp)
    have hapart := h.apart
    rw [List.isChain_cons_cons] at hapart
    exact absurd hapart.1 (by simp [linear?])

/-- Affine matrices of one size are concatenated to one of them. -/
theorem concatenate (hne : steps ≠ []) (hsteps : ∀ step ∈ steps, step.IsAffineMatrix n) :
    ∃ t, Transform.concatenate steps = .ok t ∧ t.IsAffineMatrix n := by
  have hfits : steps.IsChain Follows := by
    apply List.Pairwise.isChain
    apply List.pairwise_of_forall_mem_list
    intro first hfirst second hsecond
    exact (hsteps second hsecond).source.trans (hsteps first hfirst).target.symm
  obtain ⟨t, ht⟩ :=
    exists_concatenate hne (fun step hstep => (hsteps step hstep).composable) hfits
  refine ⟨t, ht, ?_⟩
  obtain ⟨-, kept, hkept, rfl⟩ := concatenate_eq_ok.mp ht
  have hsource : (chain steps).source = n := by
    cases steps with
    | nil => exact absurd rfl hne
    | cons first rest => exact (hsteps first List.mem_cons_self).source
  -- along the run, every merge is a product of two affine matrices
  have haffine : ∀ step ∈ kept, step.IsAffineMatrix n := by
    refine keptSteps_forall (fun hfirst hsecond hproduct => ?_) hkept hsteps
    rw [isAffineMatrix_linear] at hfirst hsecond ⊢
    exact hfirst.mul hsecond hproduct
  rw [hsource]
  exact ofKept haffine (keptSteps_simplified hkept)

end IsAffineMatrix

variable (K) [IsStrictOrderedRing K]

/-- Affine matrices of one size are closed under products and inverses, whatever holds them and
whichever formula is taken. As transforms they are closed under concatenation and inverses, a
single matrix being left, and they map points by their rows, without a division. -/
theorem affine_closed :
    (∀ (n : ℕ) (a b : HeldMatrix K), a.AffineOfSize n → b.AffineOfSize n →
      ∃ x, a.product b = .ok x ∧ (stored x).AffineOfSize n ∧
        ∀ s, a = stored s → s.mul b = .ok x) ∧
    (∀ a b : Square 2 K, (square 2 a).AffineOfSize 2 → (square 2 b).AffineOfSize 2 →
      (square 2 (a.product2 b)).AffineOfSize 2) ∧
    (∀ a b : Square 3 K, (square 3 a).AffineOfSize 3 → (square 3 b).AffineOfSize 3 →
      (square 3 (a.product3 b)).AffineOfSize 3) ∧
    (∀ (n : ℕ) (a x : StoredMatrix K), (stored a).AffineOfSize n → a.inverse = .ok x →
      (stored x).AffineOfSize n) ∧
    (∀ (n : ℕ) (a : FlatMatrix K) x, (flat a).AffineOfSize n → a.inverse = .ok x →
      (stored x).AffineOfSize n) ∧
    (∀ (n : ℕ) (a x : Square n K), (square n a).AffineOfSize n → a.inverse? = some x →
      (square n x).AffineOfSize n) ∧
    (∀ (n : ℕ) (m : HeldMatrix K), m.AffineOfSize (n + 1) →
      ∃ t, Projective.ofMatrix m.toStored = .ok t ∧ t.DivisionFree n) ∧
    ∀ (n : ℕ) (ts : List (Projective K)), ts ≠ [] → (∀ t ∈ ts, t.HasShape n n) →
      (∀ t ∈ ts, t.isAffine = true) →
        ∃ u, concatenate (ts.map linear) = .ok (linear u) ∧ u.DivisionFree n ∧
          ∀ v, (linear u).inverse = .ok v → ∃ w, v = linear w ∧ w.DivisionFree n := by
  refine ⟨?_, fun a b ha hb => ha.mul_square (by decide) hb rfl,
    fun a b ha hb => ha.mul_square (by decide) hb rfl, fun n a x ha h => ha.inverse h, ?_,
    fun n a x ha h => ha.inverse_square h, fun n m hm => exists_divisionFree hm, ?_⟩
  · intro n a b ha hb
    obtain ⟨x, hx, haffine⟩ := ha.product hb
    refine ⟨x, hx, haffine, ?_⟩
    rintro s rfl
    rwa [StoredMatrix.mul_eq_product fun x => by rw [neg_zero, zero_add]]
  · intro n a x ha h
    exact (ha.of_elements (b := stored (.flat a)) rfl rfl rfl).inverse h
  · intro n ts hne hshape haffine
    have hsteps : ∀ step ∈ ts.map linear, step.IsAffineMatrix n := by
      rw [List.forall_mem_map]
      intro t ht
      exact isAffineMatrix_linear.mpr (divisionFree_of_isAffine (hshape t ht) (haffine t ht))
    obtain ⟨_, hconcatenate, u, rfl, hu⟩ :=
      IsAffineMatrix.concatenate (by rwa [ne_eq, List.map_eq_nil_iff]) hsteps
    refine ⟨u, hconcatenate, hu, fun v hv => ?_⟩
    exact (isAffineMatrix_linear.mpr hu).inverse hv

/-- A matrix of size five, inverted by elimination, behind one that is held flat. -/
theorem affine_closed_space :
    let turn : Projective ℚ := ⟨.flat ⟨5, 5, #[0, 1, 0, 0, 4, 2, 0, 0, 0, 0, 0, 0, 3, 1, 0,
      0, 0, 1, 0, 7, 0, 0, 0, 0, 1]⟩⟩
    let shift : Projective ℚ := ⟨.flat ⟨5, 5, #[1, 0, 0, 0, 5, 0, 1, 0, 0, 0, 0, 0, 1, 0, 0,
      0, 0, 0, 1, 0, 0, 0, 0, 0, 1]⟩⟩
    ∃ u w, concatenate [linear turn, linear shift, linear turn] = .ok (linear u) ∧
      u.DivisionFree 4 ∧ (linear u).inverse = .ok (linear w) ∧ w.DivisionFree 4 := by
  intro turn shift
  obtain ⟨-, -, -, -, -, -, -, hconcatenated⟩ := affine_closed ℚ
  obtain ⟨u, hu, hfree, hback⟩ := hconcatenated 4 [turn, shift, turn] (by simp)
    (by
      simp only [List.forall_mem_cons, List.not_mem_nil, false_imp_iff, implies_true, and_true]
      exact ⟨⟨rfl, rfl, rfl⟩, ⟨rfl, rfl, rfl⟩, ⟨rfl, rfl, rfl⟩⟩)
    (by decide +kernel)
  have hinverse : (concatenate [linear turn, linear shift, linear turn] >>= inverse).isOk =
      true := by decide +kernel
  obtain ⟨v, hv⟩ := exists_of_isOk hinverse
  obtain ⟨t, ht, hv⟩ := bind_eq_ok.mp hv
  obtain rfl : linear u = t := Except.ok.inj (hu.symm.trans ht)
  obtain ⟨w, rfl, hw⟩ := hback v hv
  exact ⟨u, w, hu, hfree, hv, hw⟩

end Transform

end Georeferencing
