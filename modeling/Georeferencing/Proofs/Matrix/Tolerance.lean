import Georeferencing.Proofs.Double
import Georeferencing.Proofs.Matrix.Algebra
import Georeferencing.Matrix.Comparison

/-! # Comparisons within a tolerance

When a tolerance accepts two doubles. Of finite values the tolerance decides, and two values that
are not numbers are accepted, as is an infinity beside itself. A relative tolerance is infinite
beside an infinity, so that it also accepts an infinity beside any other number.
-/

namespace Georeferencing

namespace Double

open Float.Model Float.Model.UnpackedFloat

/-- The largest difference that is accepted. -/
def tolerance (epsilon : Float) (relative : Bool) (x y : Float) : Float :=
  if relative then epsilon * Scalar.max (Scalar.abs x) (Scalar.abs y) else epsilon

/-- Which pairs of doubles are equal within a tolerance. -/
inductive EqualWithin (epsilon : Float) (relative : Bool) (x y : Float) : Prop where
  | finite (hx : Scalar.isFinite x = true) (hy : Scalar.isFinite y = true)
    (h : Scalar.abs (x - y) ≤ tolerance epsilon relative x y)
  | nan (hx : Scalar.isNaN x = true) (hy : Scalar.isNaN y = true)
  | infinite (hx : Scalar.isInfinite x = true) (h : (x == y) = true)
  /-- An infinity beside any number, under a relative tolerance that is not zero. -/
  | unbounded (hrelative : relative = true) (hepsilon : 0 < epsilon)
    (hx : Scalar.isNaN x = false) (hy : Scalar.isNaN y = false)
    (h : Scalar.isInfinite x = true ∨ Scalar.isInfinite y = true)

variable {epsilon x y : Float} {relative : Bool}

theorem equalWithin_iff_le_or :
    Scalar.equalWithin epsilon relative x y = true ↔
      Scalar.abs (x - y) ≤ tolerance epsilon relative x y ∨ Scalar.sameSpecial x y = true := by
  change (decide (Scalar.abs (x - y) ≤ tolerance epsilon relative x y) || _) = true ↔ _
  rw [Bool.or_eq_true, decide_eq_true_iff]

theorem sameSpecial_iff :
    Scalar.sameSpecial x y = true ↔
      (Scalar.isNaN x = true ∧ Scalar.isNaN y = true) ∨
        (Scalar.isInfinite x = true ∧ (x == y) = true) := by
  rw [Scalar.sameSpecial, Bool.or_eq_true, Bool.and_eq_true, Bool.and_eq_true]

theorem not_le_of_notANumber (h : unpacked x = .notANumber) : ¬ x ≤ y := by
  rw [le_iff, h]
  simp [UnpackedFloat.compare]

theorem equalWithin_iff_of_isNaN (h : Scalar.isNaN x = true ∨ Scalar.isNaN y = true) :
    Scalar.equalWithin epsilon relative x y = true ↔
      Scalar.isNaN x = true ∧ Scalar.isNaN y = true := by
  rw [isNaN_iff, isNaN_iff] at h
  have hle : ¬ Scalar.abs (x - y) ≤ tolerance epsilon relative x y :=
    not_le_of_notANumber (unpacked_abs_notANumber (unpacked_sub_notANumber h))
  have hinfinite : ¬ (Scalar.isInfinite x = true ∧ (x == y) = true) := by
    rintro ⟨hx, hxy⟩
    rw [isInfinite_iff] at hx
    rw [beq_iff] at hxy
    rcases hx with ⟨s, hs⟩
    rcases h with h | h
    · rw [hs] at h
      cases h
    · rw [hs, h] at hxy
      cases hxy
  rw [equalWithin_iff_le_or, sameSpecial_iff]
  simp only [hle, hinfinite, false_or, or_false]

theorem equalWithin_iff_of_isFinite (hx : Scalar.isFinite x = true) :
    Scalar.equalWithin epsilon relative x y = true ↔
      Scalar.abs (x - y) ≤ tolerance epsilon relative x y := by
  have hnan : ¬ Scalar.isNaN x = true := by
    rw [isFinite_iff] at hx
    rw [isNaN_iff]
    intro h
    rw [h] at hx
    cases hx
  have hinfinite : ¬ Scalar.isInfinite x = true := by
    rw [Scalar.isInfinite, hx]
    simp
  rw [equalWithin_iff_le_or, sameSpecial_iff]
  simp only [hnan, hinfinite, Bool.false_eq_true, false_and, or_false]

theorem infinity_of_beq (h : (x == y) = true) (hy : ∃ s, unpacked y = .infinity s) :
    ∃ s, unpacked x = .infinity s := by
  rcases hy with ⟨s, hs⟩
  change (unpacked x).beq (unpacked y) = true at h
  rw [beq_iff_ne_notANumber_and_eq, hs] at h
  rcases h with ⟨-, -, hx | ⟨-, hzero⟩ | ⟨-, hzero⟩⟩
  · exact ⟨s, hx⟩
  · cases hzero
  · cases hzero

theorem infinity_le_iff (hx : unpacked x = .infinity .positive) :
    x ≤ y ↔ unpacked y = .infinity .positive := by
  rw [le_iff, hx]
  cases unpacked y with
  | notANumber => simp [UnpackedFloat.compare]
  | infinity s =>
    cases s with
    | negative => exact iff_of_false (by decide) (by simp)
    | positive => exact iff_of_true rfl rfl
  | zero s => simp [UnpackedFloat.compare]
  | finite s m e hm => simp [UnpackedFloat.compare]

/-- The tolerance beside an infinity. -/
theorem unpacked_tolerance (hfinite : Scalar.isFinite epsilon = true) (hnonneg : 0 ≤ epsilon)
    (hx : unpacked x ≠ .notANumber)
    (h : (∃ s, unpacked x = .infinity s) ∨ ∃ s, unpacked y = .infinity s) :
    unpacked (tolerance epsilon relative x y) = .infinity .positive ↔
      relative = true ∧ 0 < epsilon := by
  cases relative with
  | false =>
    rw [isFinite_iff] at hfinite
    apply iff_of_false
    · intro hinf
      change unpacked epsilon = _ at hinf
      rw [hinf] at hfinite
      cases hfinite
    · simp
  | true =>
    have hmax : unpacked (Scalar.max (Scalar.abs x) (Scalar.abs y)) = .infinity .positive := by
      apply unpacked_max_infinity (unpacked_abs_ne_notANumber hx)
      rcases h with ⟨s, hs⟩ | ⟨s, hs⟩
      · exact Or.inl (unpacked_abs_infinity hs)
      · exact Or.inr (unpacked_abs_infinity hs)
    change unpacked (epsilon * _) = _ ↔ _
    rw [unpacked_mul_infinity hfinite hnonneg hmax]
    by_cases hpos : 0 < epsilon
    · simp [hpos]
    · simp [hpos]

/-- An infinity is accepted beside itself, and by a relative tolerance beside any number. -/
theorem equalWithin_iff_of_isInfinite (hfinite : Scalar.isFinite epsilon = true)
    (hnonneg : 0 ≤ epsilon) (hx : Scalar.isNaN x = false) (hy : Scalar.isNaN y = false)
    (h : Scalar.isInfinite x = true ∨ Scalar.isInfinite y = true) :
    Scalar.equalWithin epsilon relative x y = true ↔
      (x == y) = true ∨ (relative = true ∧ 0 < epsilon) := by
  rw [← Bool.not_eq_true, isNaN_iff] at hx hy
  rw [isInfinite_iff, isInfinite_iff] at h
  rw [equalWithin_iff_le_or, sameSpecial_iff]
  by_cases hxy : (x == y) = true
  · have hinfinite : Scalar.isInfinite x = true := by
      rw [isInfinite_iff]
      exact h.elim id (infinity_of_beq hxy)
    simp only [hxy, hinfinite, true_or, or_true, and_self]
  · have hne : unpacked x ≠ unpacked y := by
      intro heq
      rw [beq_iff, ← heq, compare_self hx] at hxy
      exact hxy rfl
    rcases unpacked_sub_infinity hx hy h hne with ⟨s, hs⟩
    rw [infinity_le_iff (unpacked_abs_infinity hs), unpacked_tolerance hfinite hnonneg hx h,
      isNaN_iff, isNaN_iff]
    simp only [hx, hxy, false_and, and_false, or_false, false_or, Bool.false_eq_true]

theorem isFinite_or_isInfinite_or_isNaN (x : Float) :
    Scalar.isFinite x = true ∨ Scalar.isInfinite x = true ∨ Scalar.isNaN x = true := by
  rw [isFinite_iff, isInfinite_iff, isNaN_iff]
  cases unpacked x <;> simp [UnpackedFloat.isFinite]

/-- Which pairs of doubles a finite tolerance accepts. -/
theorem equalWithin_iff (hfinite : Scalar.isFinite epsilon = true) (hnonneg : 0 ≤ epsilon) :
    Scalar.equalWithin epsilon relative x y = true ↔ EqualWithin epsilon relative x y := by
  constructor
  · intro h
    by_cases hnan : Scalar.isNaN x = true ∨ Scalar.isNaN y = true
    · rcases (equalWithin_iff_of_isNaN hnan).mp h with ⟨hx, hy⟩
      exact .nan hx hy
    · simp only [not_or, Bool.not_eq_true] at hnan
      rcases hnan with ⟨hx, hy⟩
      by_cases hinf : Scalar.isInfinite x = true ∨ Scalar.isInfinite y = true
      · rcases (equalWithin_iff_of_isInfinite hfinite hnonneg hx hy hinf).mp h with hxy | ⟨hr, hpos⟩
        · have hxi : Scalar.isInfinite x = true := by
            rw [isInfinite_iff, isInfinite_iff] at hinf
            rw [isInfinite_iff]
            exact hinf.elim id (infinity_of_beq hxy)
          exact .infinite hxi hxy
        · exact .unbounded hr hpos hx hy hinf
      · have hxf := (isFinite_or_isInfinite_or_isNaN x).resolve_right (by simp_all)
        have hyf := (isFinite_or_isInfinite_or_isNaN y).resolve_right (by simp_all)
        exact .finite hxf hyf ((equalWithin_iff_of_isFinite hxf).mp h)
  · intro h
    cases h with
    | finite hx hy h => exact (equalWithin_iff_of_isFinite hx).mpr h
    | nan hx hy => exact (equalWithin_iff_of_isNaN (Or.inl hx)).mpr ⟨hx, hy⟩
    | infinite hx h =>
      exact equalWithin_iff_le_or.mpr (Or.inr (sameSpecial_iff.mpr (Or.inr ⟨hx, h⟩)))
    | unbounded hr hpos hx hy h =>
      exact (equalWithin_iff_of_isInfinite hfinite hnonneg hx hy h).mpr (Or.inr ⟨hr, hpos⟩)

end Double

namespace HeldMatrix

/-- A test of two lists in parallel sees the places that both of them have. -/
theorem all_zip_iff {α : Type} {test : α × α → Bool} {x y : Array α} :
    (x.toList.zip y.toList).all test = true ↔
      ∀ (k : ℕ) (e f : α), x[k]? = some e → y[k]? = some f → test (e, f) = true := by
  rw [List.all_eq_true]
  constructor
  · intro h k e f he hf
    apply h (e, f)
    rw [List.mem_iff_getElem?]
    use k
    rw [List.getElem?_zip_eq_some, Array.getElem?_toList, Array.getElem?_toList]
    exact ⟨he, hf⟩
  · rintro h ⟨e, f⟩ hpair
    obtain ⟨k, hk⟩ := List.mem_iff_getElem?.mp hpair
    rw [List.getElem?_zip_eq_some, Array.getElem?_toList, Array.getElem?_toList] at hk
    exact h k e f hk.1 hk.2

section Places

variable {α : Type} [Scalar α] {a b : HeldMatrix α}

theorem get_eq_ok_iff (ha : a.Consistent) {row column : ℕ} {x : α} :
    a.get row column = .ok x ↔
      row < a.numRow ∧ column < a.numCol ∧ a.elements.getD (row * a.numCol + column) 0 = x := by
  rw [ha.2]
  split
  · next h => simp [h]
  · next h =>
    apply iff_of_false
    · simp
    · rintro ⟨hrow, hcol, -⟩
      exact h ⟨hrow, hcol⟩

/-- Matrices of one shape are compared place by place. -/
theorem equalWithin_iff_forall (ha : a.Consistent) (hb : b.Consistent)
    (hrow : a.numRow = b.numRow) (hcol : a.numCol = b.numCol) (epsilon : α) (relative : Bool) :
    a.equalWithin epsilon relative b = true ↔
      ∀ row column x y, a.get row column = .ok x → b.get row column = .ok y →
        Scalar.equalWithin epsilon relative x y = true := by
  have hsize : a.elements.size = a.numRow * a.numCol := ha.1
  have hsize' : b.elements.size = a.numRow * a.numCol := by rw [hrow, hcol, hb.1]
  rw [equalWithin, hrow, hcol, beq_self_eq_true, beq_self_eq_true, Bool.true_and, Bool.true_and,
    all_zip_iff]
  constructor
  · intro h row column x y hx hy
    rw [get_eq_ok_iff ha] at hx
    rw [get_eq_ok_iff hb, ← hrow, ← hcol] at hy
    rcases hx with ⟨hr, hc, rfl⟩
    rcases hy with ⟨-, -, rfl⟩
    have hk := rowMajor_lt hr hc
    apply h (row * a.numCol + column)
    · simp [hsize, hk]
    · simp [hsize', hk]
  · intro h k x y hx hy
    obtain ⟨hka, rfl⟩ := Array.getElem?_eq_some_iff.mp hx
    obtain ⟨hkb, rfl⟩ := Array.getElem?_eq_some_iff.mp hy
    have hk : k < a.numRow * a.numCol := hsize ▸ hka
    have hr : k / a.numCol < a.numRow := Nat.div_lt_of_lt_mul (by rwa [Nat.mul_comm])
    have hc : k % a.numCol < a.numCol := Nat.mod_lt _ (pos_of_lt_mul hk)
    apply h (k / a.numCol) (k % a.numCol)
    · rw [get_eq_ok_iff ha]
      simp [hr, hc, Nat.div_add_mod', hka]
    · rw [get_eq_ok_iff hb, ← hrow, ← hcol]
      simp [hr, hc, Nat.div_add_mod', hkb]

end Places

variable {a b : HeldMatrix Float} {epsilon : Float}

/-- Which matrices of one shape a finite tolerance accepts. -/
theorem equalWithin_iff_places (ha : a.Consistent) (hb : b.Consistent)
    (hrow : a.numRow = b.numRow) (hcol : a.numCol = b.numCol)
    (hfinite : Scalar.isFinite epsilon = true) (hnonneg : 0 ≤ epsilon) (relative : Bool) :
    a.equalWithin epsilon relative b = true ↔
      ∀ row column x y, a.get row column = .ok x → b.get row column = .ok y →
        Double.EqualWithin epsilon relative x y := by
  rw [equalWithin_iff_forall ha hb hrow hcol]
  simp only [Double.equalWithin_iff hfinite hnonneg]

/-- An approximate comparison accepts an infinity beside one. -/
theorem approximate_infinity_one :
    let infinite : HeldMatrix Float := .square 1 (.of1 Scalar.infinity)
    let one : HeldMatrix Float := .square 1 (.of1 1)
    Strictness.approximate.equal (some infinite) (some one) = true ∧
      Scalar.isInfinite (Scalar.infinity : Float) = true ∧ Scalar.isFinite (1 : Float) = true := by
  intro infinite one
  have hinfinite : infinite.Consistent := consistent_square _
  have hone : one.Consistent := consistent_square _
  have hfinite : Scalar.isFinite (Strictness.threshold : Float) = true := by decide +kernel
  have hnonneg : 0 ≤ (Strictness.threshold : Float) := by decide +kernel
  constructor
  swap
  · decide +kernel
  apply (equalWithin_iff_places hinfinite hone rfl rfl hfinite hnonneg true).mpr
  intro row column x y hx hy
  rw [get_eq_ok_iff hinfinite] at hx
  rw [get_eq_ok_iff hone] at hy
  rcases hx with ⟨hr, hc, rfl⟩
  rcases hy with ⟨-, -, rfl⟩
  have hr0 : row = 0 := Nat.lt_one_iff.mp hr
  have hc0 : column = 0 := Nat.lt_one_iff.mp hc
  subst hr0 hc0
  exact .unbounded rfl (by decide +kernel) (by decide +kernel) (by decide +kernel)
    (Or.inl (by decide +kernel))

end HeldMatrix

end Georeferencing
