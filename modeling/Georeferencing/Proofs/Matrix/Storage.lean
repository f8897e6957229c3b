import Georeferencing.Matrix.Construction
import Georeferencing.Proofs.Matrix.Algebra
import Georeferencing.Proofs.Outcome

/-! # The storage that a shape asks for

A stored matrix is canonical if it has all its coefficients and is held as a block exactly when it
is square of size one to four. What makes a matrix from data, or from matrices of any type, chooses
the storage by the shape of the result; what changes a canonical matrix keeps it canonical.
-/

namespace Georeferencing

/-- What makes a matrix and chooses its storage: the factories, the functions that read matrices of
any type, and the conversion of a matrix that is not stored yet. -/
inductive MatrixSource (α : Type) where
  | listed (numRow numCol : ℕ) (values : Array α)
  | zero (numRow numCol : ℕ)
  | diagonal (numRow numCol : ℕ)
  | identity (size : ℕ)
  | betweenEnvelopes (source target : Envelope α)
  | betweenAxes (source target : List AxisDirection)
  | betweenFrames (sourceEnvelope : Envelope α) (source : List AxisDirection)
    (targetEnvelope : Envelope α) (target : List AxisDirection)
  | selectOrdinates (sourceDimension : ℕ) (selected : List ℕ)
  | passThrough (leading : ℕ) (sub : HeldMatrix α) (trailing : ℕ)
  | product (a b : HeldMatrix α)
  | copy (m : HeldMatrix α)
  | square (n : ℕ) (m : Square n α)
  | table (m : Table α)
  | foreign (m : ForeignMatrix α)

/-- What makes a stored matrix from a stored matrix. -/
inductive MatrixChange (α : Type) where
  | set (row column : ℕ) (value : α)
  | refill (values : Array α)
  | transpose
  | unitColumns
  | inverse
  | solve (b : HeldMatrix α)
  | mul (b : HeldMatrix α)

variable {α : Type} [Scalar α]

def MatrixSource.make : MatrixSource α → Except MatrixError (StoredMatrix α)
  | listed numRow numCol values => StoredMatrix.ofElements numRow numCol values
  | zero numRow numCol => .ok (.zero numRow numCol)
  | diagonal numRow numCol => .ok (.diagonal numRow numCol)
  | identity size => .ok (.identity size)
  | betweenEnvelopes source target => .ok (.betweenEnvelopes source target)
  | betweenAxes source target => StoredMatrix.betweenAxes source target
  | betweenFrames sourceEnvelope source targetEnvelope target =>
    StoredMatrix.betweenFrames sourceEnvelope source targetEnvelope target
  | selectOrdinates sourceDimension selected => StoredMatrix.selectOrdinates sourceDimension selected
  | passThrough leading sub trailing => StoredMatrix.passThrough leading sub trailing
  | product a b => a.product b
  | copy m => .ok m.copy
  | square n m => .ok (HeldMatrix.square n m).toStored
  | table m => .ok (HeldMatrix.table m).toStored
  | foreign m => .ok (HeldMatrix.foreign m).toStored

def MatrixChange.apply [Elementary α] (m : StoredMatrix α) :
    MatrixChange α → Except MatrixError (StoredMatrix α)
  | set row column value => m.set row column value
  | refill values => m.refill values
  | transpose => .ok m.transpose
  | unitColumns => .ok m.unitColumns
  | inverse => m.inverse
  | solve b => m.solve b
  | mul b => m.mul b

namespace StoredMatrix

variable {m x : StoredMatrix α}

omit [Scalar α] in
/-- The shape and the storage of a canonical matrix. -/
theorem Canonical.storage (h : m.Canonical) :
    (∀ n, (∃ hn b, m = small n hn b) ↔ m.numRow = n ∧ m.numCol = n ∧ 1 ≤ n ∧ n ≤ 4) ∧
      ((∃ f, m = flat f) ↔ ¬ (m.numRow = m.numCol ∧ 1 ≤ m.numRow ∧ m.numRow ≤ 4)) := by
  cases m with
  | small k hk b =>
    constructor
    · intro n
      constructor
      · rintro ⟨hn, b', h⟩
        obtain rfl : k = n := congrArg numRow h
        exact ⟨rfl, rfl, hn⟩
      · rintro ⟨hrow, -, -⟩
        cases hrow
        exact ⟨hk, b, rfl⟩
    · exact iff_of_false (by simp) fun hflat => hflat ⟨rfl, hk⟩
  | flat f =>
    constructor
    · intro n
      apply iff_of_false
      · simp
      · rintro ⟨rfl, hcol, hn⟩
        exact h.2 ⟨hcol.symm, hn⟩
    · exact iff_of_true ⟨f, rfl⟩ h.2

omit [Scalar α] in
theorem canonical_ofElements {numRow numCol : ℕ} {elements : Array α}
    (h : ofElements numRow numCol elements = .ok x) : x.Canonical := by
  unfold ofElements at h
  split at h
  · cases h
    exact canonical_ofBlock _
  · cases h

theorem canonical_betweenFrames {sourceEnvelope targetEnvelope : Envelope α}
    {source target : List AxisDirection}
    (h : betweenFrames sourceEnvelope source targetEnvelope target = .ok x) : x.Canonical := by
  obtain ⟨_, -, h⟩ := bind_eq_ok.mp h
  obtain ⟨_, -, h⟩ := bind_eq_ok.mp h
  obtain ⟨_, -, h⟩ := bind_eq_ok.mp h
  cases h
  exact canonical_ofBlock _

theorem canonical_betweenAxes {source target : List AxisDirection}
    (h : betweenAxes source target = .ok x) : x.Canonical := by
  obtain ⟨_, -, h⟩ := bind_eq_ok.mp h
  cases h
  exact canonical_ofBlock _

theorem canonical_selectOrdinates {sourceDimension : ℕ} {selected : List ℕ}
    (h : selectOrdinates sourceDimension selected = .ok x) : x.Canonical := by
  obtain ⟨_, -, h⟩ := bind_eq_ok.mp h
  cases h
  exact canonical_ofBlock _

theorem canonical_passThrough {leading trailing : ℕ} {sub : HeldMatrix α}
    (h : passThrough leading sub trailing = .ok x) : x.Canonical := by
  unfold passThrough at h
  split at h
  · cases h
  · cases h
    exact canonical_ofBlock _

theorem canonical_product {a b : HeldMatrix α} (h : a.product b = .ok x) : x.Canonical := by
  obtain ⟨_, -, h⟩ := bind_eq_ok.mp h
  cases h
  exact canonical_ofBlock _

theorem canonical_copy (m : HeldMatrix α) : m.copy.Canonical := by
  unfold HeldMatrix.copy
  split
  · exact canonical_ofBlock _
  · exact canonical_ofBlock _

theorem canonical_toStored_square {n : ℕ} (s : Square n α) :
    (HeldMatrix.square n s).toStored.Canonical := by
  rw [HeldMatrix.toStored]
  split
  · trivial
  · exact canonical_copy _

/-- Whatever makes a matrix stores it as its shape asks for. -/
theorem canonical_make {source : MatrixSource α} (h : source.make = .ok x) : x.Canonical := by
  cases source with
  | listed numRow numCol values => exact canonical_ofElements h
  | zero numRow numCol =>
    cases h
    exact canonical_ofBlock _
  | diagonal numRow numCol =>
    cases h
    exact canonical_ofBlock _
  | identity size =>
    cases h
    exact canonical_ofBlock _
  | betweenEnvelopes source target =>
    cases h
    exact canonical_ofBlock _
  | betweenAxes source target => exact canonical_betweenAxes h
  | betweenFrames sourceEnvelope source targetEnvelope target => exact canonical_betweenFrames h
  | selectOrdinates sourceDimension selected => exact canonical_selectOrdinates h
  | passThrough leading sub trailing => exact canonical_passThrough h
  | product a b => exact canonical_product h
  | copy m =>
    cases h
    exact canonical_copy m
  | square n m =>
    cases h
    exact canonical_toStored_square m
  | table m =>
    cases h
    exact canonical_copy _
  | foreign m =>
    cases h
    exact canonical_copy _

omit [Scalar α] in
theorem Canonical.set (hm : m.Canonical) {row column : ℕ} {value : α}
    (h : m.set row column value = .ok x) : x.Canonical := by
  cases m with
  | small n hn b =>
    obtain ⟨b', -, rfl⟩ := map_eq_ok.mp h
    trivial
  | flat m =>
    obtain ⟨m', hset, rfl⟩ := map_eq_ok.mp h
    unfold FlatMatrix.set at hset
    split at hset
    · cases hset
      refine ⟨?_, hm.2⟩
      rw [FlatMatrix.Consistent, Array.size_setIfInBounds]
      exact hm.1
    · cases hset

omit [Scalar α] in
theorem Canonical.refill (hm : m.Canonical) {elements : Array α}
    (h : m.refill elements = .ok x) : x.Canonical := by
  cases m with
  | small n hn b =>
    rw [StoredMatrix.refill] at h
    split at h
    · cases h
      trivial
    · cases h
  | flat m =>
    obtain ⟨m', hrefill, rfl⟩ := map_eq_ok.mp h
    unfold FlatMatrix.refill at hrefill
    split at hrefill
    · next hsize =>
      cases hrefill
      exact ⟨hsize.trans hm.1, hm.2⟩
    · cases hrefill

omit [Scalar α] in
/-- A flat array is the right storage for the transposed shape too. -/
theorem not_small_swap {numRow numCol : ℕ} (h : ¬ (numRow = numCol ∧ IsSmall numRow)) :
    ¬ (numCol = numRow ∧ IsSmall numCol) := by
  rintro ⟨rfl, hsmall⟩
  exact h ⟨rfl, hsmall⟩

theorem Canonical.transpose (hm : m.Canonical) : m.transpose.Canonical := by
  cases m with
  | small n hn b => trivial
  | flat m => exact ⟨FlatMatrix.consistent_ofBlock _, not_small_swap hm.2⟩

theorem Canonical.unitColumns [Elementary α] (hm : m.Canonical) : m.unitColumns.Canonical := by
  cases m with
  | small n hn b => trivial
  | flat m => exact ⟨FlatMatrix.consistent_ofBlock _, hm.2⟩

/-- An inverse is held in the storage that its shape asks for. -/
theorem canonical_inverse (h : m.inverse = .ok x) : x.Canonical := by
  cases m with
  | small n hn a =>
    rw [inverse] at h
    split at h
    · cases h
      trivial
    · cases h
  | flat a =>
    rw [inverse, FlatMatrix.inverse] at h
    split at h
    · split at h
      · cases h
        exact canonical_ofBlock _
      · cases h
    · cases h

theorem canonical_solve {b : HeldMatrix α} (h : m.solve b = .ok x) : x.Canonical := by
  unfold solve at h
  split at h
  · obtain ⟨_, -, h⟩ := bind_eq_ok.mp h
    split at h
    · cases h
    · exact canonical_ofElements h
  · obtain ⟨_, -, h⟩ := bind_eq_ok.mp h
    split at h
    · split at h
      · cases h
        exact canonical_ofBlock _
      · cases h
    · cases h

theorem canonical_mul {b : HeldMatrix α} (h : m.mul b = .ok x) : x.Canonical := by
  unfold mul at h
  split at h
  · cases h
    trivial
  · cases h
    trivial
  · exact canonical_product h

/-- Whatever is done to a canonical matrix gives a canonical one. -/
theorem Canonical.apply [Elementary α] (hm : m.Canonical) {change : MatrixChange α}
    (h : change.apply m = .ok x) : x.Canonical := by
  cases change with
  | set row column value => exact hm.set h
  | refill values => exact hm.refill h
  | transpose =>
    cases h
    exact hm.transpose
  | unitColumns =>
    cases h
    exact hm.unitColumns
  | inverse => exact canonical_inverse h
  | solve b => exact canonical_solve h
  | mul b => exact canonical_mul h

end StoredMatrix

end Georeferencing
