import Georeferencing.Proofs.Double
import Georeferencing.Proofs.Matrix.Solve

/-! # Matrices with a coefficient that is not a number

What is not a number is above nothing, so a test that is written as a negated comparison refuses
it. The determinants of sizes two and three contain every coefficient and are refused wherever such
a value stands. Elimination refuses it where it comes up as a pivot, which it does in any row that
has not been used when its column is reached. In a row that has been used nothing looks at it any
more, and clearing its column spoils this row of the right side. The test for size one is whether
the coefficient equals zero, and what is not a number does not.
-/

namespace Georeferencing

/-- What is not a number makes the result of every operation on it another one, and a comparison
with it is false. -/
structure PropagatesNaN (α : Type) [Scalar α] : Prop where
  add : ∀ {a b : α}, Scalar.isNaN a = true ∨ Scalar.isNaN b = true → Scalar.isNaN (a + b) = true
  sub : ∀ {a b : α}, Scalar.isNaN a = true ∨ Scalar.isNaN b = true → Scalar.isNaN (a - b) = true
  mul : ∀ {a b : α}, Scalar.isNaN a = true ∨ Scalar.isNaN b = true → Scalar.isNaN (a * b) = true
  div : ∀ {a b : α}, Scalar.isNaN a = true ∨ Scalar.isNaN b = true → Scalar.isNaN (a / b) = true
  not_lt : ∀ {a b : α}, Scalar.isNaN a = true ∨ Scalar.isNaN b = true → ¬ a < b
  not_le : ∀ {a b : α}, Scalar.isNaN a = true ∨ Scalar.isNaN b = true → ¬ a ≤ b
  not_beq : ∀ {a b : α}, Scalar.isNaN a = true ∨ Scalar.isNaN b = true → ¬ (a == b) = true

theorem Double.propagatesNaN : PropagatesNaN Float where
  add := isNaN_add
  sub := isNaN_sub
  mul := isNaN_mul
  div := isNaN_div
  not_lt h := by simp [lt_iff, compare_of_isNaN h]
  not_le h := by simp [le_iff, compare_of_isNaN h]
  not_beq h := by simp [beq_iff, compare_of_isNaN h]

/-- The matrix when the columns before `k` have been eliminated. -/
def Square.reduced {α : Type} [Scalar α] {n : ℕ} (m : Square n α) (k : Fin n) : Square n α :=
  ((⟨m, Block.zero n 0⟩ : LinearSystem n 0 α).after k).left

variable {α : Type} [Scalar α] {n w : ℕ}

namespace LinearSystem

variable {s t u : LinearSystem n w α} {σ τ : Equiv.Perm (Fin n)}

/-- What was not a number in some row of the first system is none in the row of the second system
that this one became. -/
structure KeepsNaN (σ : Equiv.Perm (Fin n)) (s t : LinearSystem n w α) : Prop where
  left : ∀ i j, Scalar.isNaN (s.left i j) = true → Scalar.isNaN (t.left (σ i) j) = true
  right : ∀ i j, Scalar.isNaN (s.right i j) = true → Scalar.isNaN (t.right (σ i) j) = true

theorem keepsNaN_mapRows {f : {c : ℕ} → Block n c α → Fin n → Fin c → α}
    (hf : ∀ {c : ℕ} (b : Block n c α) (i : Fin n) (j : Fin c),
      Scalar.isNaN (b i j) = true → Scalar.isNaN (f b (σ i) j) = true) :
    KeepsNaN σ s (s.mapRows f) where
  left i j h := by
    rw [mapRows, Block.entry_ofFn]
    exact hf s.left i j h
  right i j h := by
    rw [mapRows, Block.entry_ofFn]
    exact hf s.right i j h

theorem KeepsNaN.trans (hst : KeepsNaN σ s t) (htu : KeepsNaN τ t u) : KeepsNaN (τ * σ) s u where
  left i j h := htu.left _ j (hst.left i j h)
  right i j h := htu.right _ j (hst.right i j h)

theorem keepsNaN_swapRows (s : LinearSystem n w α) (p q : Fin n) :
    KeepsNaN (Equiv.swap p q) s (s.swapRows p q) := by
  apply keepsNaN_mapRows
  intro c b i j h
  rw [← Equiv.swap_apply_def, Equiv.swap_apply_self]
  exact h

/-- What is not a number is still ahead, in one of the columns from `m` on, or it has spoiled a row
of the right side that will not be used any more. -/
inductive Spoiled (s : LinearSystem n w α) (m : ℕ) : Prop
  | ahead (i j : Fin n) (hj : m ≤ j) (h : Scalar.isNaN (s.left i j) = true)
  | behind (i : Fin n) (hi : i < m) (h : ∀ j, Scalar.isNaN (s.right i j) = true)

end LinearSystem

namespace StoredMatrix

/-- The coefficients of a square matrix. -/
def toSquare (m : StoredMatrix α) : Square m.numRow α := .ofArray _ _ m.elements

/-- The inverse of a square matrix, found in the way of its storage. -/
def squareInverse? : (m : StoredMatrix α) → Option (Square m.numRow α)
  | small _ _ b => b.inverse?
  | flat f => (flat f).toSquare.eliminationInverse?

/-- Whether a square matrix with a coefficient that is not a number is refused: a block of size one
never, blocks of sizes two and three always, any other one if elimination comes to a pivot that is
negligible or not a number. -/
def RefusesNaN : StoredMatrix α → Prop
  | small 1 _ _ => False
  | small 2 _ _ => True
  | small 3 _ _ => True
  | m => m.toSquare.HasNegligiblePivot

variable {m : StoredMatrix α}

theorem toSquare_small (h : IsSmall n) (b : Square n α) : (small n h b).toSquare = b :=
  b.ofArray_elements

theorem inverse_eq_ok {x : Square m.numRow α} (hsquare : m.numRow = m.numCol)
    (hx : m.squareInverse? = some x) : m.inverse = .ok (ofBlock x) := by
  cases m with
  | small n h b =>
    change b.inverse? = some x at hx
    rw [inverse, hx]
    exact congrArg Except.ok (ofBlock_square h x).symm
  | flat f =>
    change Square.eliminationInverse? (Block.ofArray f.numRow f.numRow f.elements) = some x at hx
    have hshape : f.numRow = f.numCol := hsquare
    rw [inverse, FlatMatrix.inverse, if_pos hshape, hx]
    rfl

theorem inverse_refused_iff_squareInverse? (hsquare : m.numRow = m.numCol) :
    m.inverse = .error .nonInvertible ↔ m.squareInverse? = none := by
  cases hx : m.squareInverse? with
  | some x => simp [inverse_eq_ok hsquare hx]
  | none =>
    refine iff_of_true ?_ rfl
    cases m with
    | small n h b =>
      change b.inverse? = none at hx
      rw [inverse, hx]
    | flat f =>
      change Square.eliminationInverse? (Block.ofArray f.numRow f.numRow f.elements) = none at hx
      have hshape : f.numRow = f.numCol := hsquare
      rw [inverse, FlatMatrix.inverse, if_pos hshape, hx]

theorem refusesNaN_of_hasNegligiblePivot (hsize : ∀ hn b, m ≠ small 1 hn b)
    (h : m.toSquare.HasNegligiblePivot) : m.RefusesNaN := by
  unfold RefusesNaN
  split
  · next hn b => exact hsize hn b rfl
  · trivial
  · trivial
  · exact h

end StoredMatrix

section Laws

variable (laws : PropagatesNaN α)

include laws

theorem vanishesBeside_of_isNaN {value : α} (h : Scalar.isNaN value = true) (scale : α) :
    Scalar.vanishesBeside value scale = true := by
  have habs : Scalar.abs value = value := if_neg (laws.not_lt (.inl h))
  rw [Scalar.vanishesBeside, habs, decide_eq_false (laws.not_lt (.inr h)), Bool.not_false]

/-- Among magnitudes what is not a number is kept once it has come up. -/
theorem isNaN_foldl_best {ι : Type} (f : ι → α) (l : List ι) (first : ι)
    (h : Scalar.isNaN (f first) = true ∨ ∃ i ∈ l, Scalar.isNaN (f i) = true) :
    Scalar.isNaN (f (l.foldl
      (fun best i => if Scalar.magnitudeLE (f best) (f i) then i else best) first)) = true := by
  induction l generalizing first with
  | nil => simpa using h
  | cons i rest ih =>
    rw [List.foldl_cons]
    rw [List.exists_mem_cons_iff] at h
    apply ih
    rcases h with hfirst | hi | hrest
    · left
      split
      · next hle =>
        have habs : Scalar.abs (f first) = f first := if_neg (laws.not_lt (.inl hfirst))
        rw [Scalar.magnitudeLE, habs, decide_eq_false (laws.not_le (.inl hfirst)),
          Bool.or_false] at hle
        exact hle
      · exact hfirst
    · left
      rwa [Scalar.magnitudeLE, hi, Bool.true_or, if_pos rfl]
    · exact .inr hrest

namespace LinearSystem

variable {s : LinearSystem n w α} {i j k : Fin n}

/-- In a row that has not been used it becomes the pivot of its column. -/
theorem isNaN_pivot (hki : k ≤ i) (h : Scalar.isNaN (s.left i k) = true) :
    Scalar.isNaN (s.pivot k) = true := by
  have hmem : i ∈ (List.finRange n).filter (k ≤ ·) :=
    List.mem_filter.mpr ⟨List.mem_finRange i, decide_eq_true hki⟩
  exact isNaN_foldl_best laws (fun i => s.left i k) _ k (.inr ⟨i, hmem, h⟩)

theorem keepsNaN_divideRow (s : LinearSystem n w α) (k : Fin n) (divisor : α) :
    KeepsNaN 1 s (s.divideRow k divisor) := by
  apply keepsNaN_mapRows
  intro c b i j h
  rw [Equiv.Perm.one_apply]
  split
  · exact laws.div (.inl h)
  · exact h

theorem keepsNaN_clearColumn (s : LinearSystem n w α) (k : Fin n) :
    KeepsNaN 1 s (s.clearColumn k) := by
  apply keepsNaN_mapRows
  intro c b i j h
  rw [Equiv.Perm.one_apply]
  split
  · exact h
  · exact laws.sub (.inl h)

theorem keepsNaN_normalized (s : LinearSystem n w α) (k : Fin n) :
    KeepsNaN (Equiv.swap k (s.pivotRow k)) s
      ((s.swapRows k (s.pivotRow k)).divideRow k (s.pivot k)) :=
  (keepsNaN_swapRows s k _).trans (keepsNaN_divideRow laws _ k _)

theorem keepsNaN_eliminate (s : LinearSystem n w α) (k : Fin n) :
    KeepsNaN (Equiv.swap k (s.pivotRow k)) s (s.eliminate k) :=
  (keepsNaN_normalized laws s k).trans (keepsNaN_clearColumn laws _ k)

/-- Clearing a column multiplies the row of the pivot by what stands there. -/
theorem isNaN_right_clearColumn (hik : i ≠ k) (h : Scalar.isNaN (s.left i k) = true) (j : Fin w) :
    Scalar.isNaN ((s.clearColumn k).right i j) = true := by
  have hzero : (s.left i k == 0) = false := Bool.eq_false_iff.mpr (laws.not_beq (.inl h))
  rw [clearColumn, mapRows, Block.entry_ofFn, hzero, decide_eq_false hik, Bool.or_self,
    if_neg Bool.false_ne_true]
  exact laws.sub (.inr (laws.mul (.inl h)))

/-- A column whose pivot is a number does not repair anything. -/
theorem Spoiled.eliminate (h : Spoiled s k) (hpivot : ¬ Scalar.isNaN (s.pivot k) = true) :
    Spoiled (s.eliminate k) (k + 1) := by
  have hfixed : ∀ i < k, Equiv.swap k (s.pivotRow k) i = i := fun i hi =>
    Equiv.swap_apply_of_ne_of_ne hi.ne (hi.trans_le (s.le_pivotRow k)).ne
  cases h with
  | ahead i j hj hnan =>
    rcases hj.eq_or_lt with heq | hlt
    · obtain rfl : k = j := Fin.ext heq
      -- In an unused row it would have become the pivot; a used one stays where it is.
      have hik : i < k := by
        by_contra hle
        exact hpivot (isNaN_pivot laws (not_lt.mp hle) hnan)
      have hkept := (keepsNaN_normalized laws s k).left i k hnan
      rw [hfixed i hik] at hkept
      exact .behind i (Nat.lt_succ_of_lt hik) (isNaN_right_clearColumn laws hik.ne hkept)
    · exact .ahead _ j hlt ((keepsNaN_eliminate laws s k).left i j hnan)
  | behind i hi hnan =>
    refine .behind i (Nat.lt_succ_of_lt hi) fun j => ?_
    have hkept := (keepsNaN_eliminate laws s k).right i j (hnan j)
    rwa [hfixed i hi] at hkept

/-- If elimination accepts a matrix with a coefficient that is not a number, a row of the solution
has no number in it. -/
theorem exists_row_isNaN {x : Block n w α} (hx : s.solve? = some x)
    (h : Scalar.isNaN (s.left i j) = true) : ∃ k, ∀ l, Scalar.isNaN (x k l) = true := by
  obtain ⟨rfl, haccepted⟩ := solve?_eq_some.mp hx
  have hspoiled : Spoiled (s.after n) n := by
    apply after_induction (P := fun m t => Spoiled t m) (.ahead i j (Nat.zero_le _) h) le_rfl
    intro k _ hbefore
    exact hbefore.eliminate laws fun hnan => haccepted k (vanishesBeside_of_isNaN laws hnan _)
  cases hspoiled with
  | ahead i j hj h => exact absurd j.isLt (not_lt.mpr hj)
  | behind i hi h => exact ⟨i, h⟩

end LinearSystem

namespace Square

theorem hasNegligiblePivot_of_isNaN {m : Square n α} {i k : Fin n} (hki : k ≤ i)
    (h : Scalar.isNaN (m.reduced k i k) = true) : m.HasNegligiblePivot :=
  ⟨k, vanishesBeside_of_isNaN laws (LinearSystem.isNaN_pivot laws hki h) _⟩

/-- Each coefficient has a part in the determinant. -/
theorem isNaN_determinant2 {m : Square 2 α} (i j : Fin 2) (h : Scalar.isNaN (m i j) = true) :
    Scalar.isNaN m.determinant2 = true := by
  by_contra hdet
  obtain ⟨hdiagonal, hother⟩ := not_or.mp (mt laws.sub hdet)
  obtain ⟨h00, h11⟩ := not_or.mp (mt laws.mul hdiagonal)
  obtain ⟨h01, h10⟩ := not_or.mp (mt laws.mul hother)
  have hall : ∀ i j, ¬ Scalar.isNaN (m i j) = true
    | 0, 0 => h00
    | 0, 1 => h01
    | 1, 0 => h10
    | 1, 1 => h11
  exact hall i j h

theorem isNaN_cofactors3 {m : Square 3 α} (i j : Fin 3) (h : Scalar.isNaN (m i j) = true) :
    Scalar.isNaN (m 0 0 * (m 1 1 * m 2 2 - m 1 2 * m 2 1)
      + m 0 1 * (m 1 2 * m 2 0 - m 1 0 * m 2 2)
      + m 0 2 * (m 1 0 * m 2 1 - m 1 1 * m 2 0)) = true := by
  have hterm : ∀ {a b c d : α}, ¬ Scalar.isNaN (a * (b * c - d)) = true →
      ¬ Scalar.isNaN a = true ∧ ¬ Scalar.isNaN b = true ∧ ¬ Scalar.isNaN c = true := by
    intro a b c d hterm
    obtain ⟨ha, hminor⟩ := not_or.mp (mt laws.mul hterm)
    exact ⟨ha, not_or.mp (mt laws.mul (not_or.mp (mt laws.sub hminor)).1)⟩
  by_contra hdet
  obtain ⟨hbefore, hlast⟩ := not_or.mp (mt laws.add hdet)
  obtain ⟨hfirst, hsecond⟩ := not_or.mp (mt laws.add hbefore)
  obtain ⟨h00, h11, h22⟩ := hterm hfirst
  obtain ⟨h01, h12, h20⟩ := hterm hsecond
  obtain ⟨h02, h10, h21⟩ := hterm hlast
  have hall : ∀ i j, ¬ Scalar.isNaN (m i j) = true
    | 0, 0 => h00
    | 0, 1 => h01
    | 0, 2 => h02
    | 1, 0 => h10
    | 1, 1 => h11
    | 1, 2 => h12
    | 2, 0 => h20
    | 2, 1 => h21
    | 2, 2 => h22
  exact hall i j h

theorem inverse2?_of_isNaN {m : Square 2 α} (i j : Fin 2) (h : Scalar.isNaN (m i j) = true) :
    m.inverse2? = none :=
  if_pos (vanishesBeside_of_isNaN laws (isNaN_determinant2 laws i j h) _)

theorem inverse3?_of_isNaN {m : Square 3 α} (i j : Fin 3) (h : Scalar.isNaN (m i j) = true) :
    m.inverse3? = none :=
  if_pos (vanishesBeside_of_isNaN laws (isNaN_cofactors3 laws i j h) _)

theorem inverse1?_of_isNaN {m : Square 1 α} (h : Scalar.isNaN (m 0 0) = true) :
    m.inverse1? = some (of1 (1 / m 0 0)) :=
  if_neg (laws.not_beq (.inl h))

/-- An inverse is refused, or a row of it has no number in it. -/
theorem inverse?_of_isNaN {m : Square n α} {i j : Fin n} (h : Scalar.isNaN (m i j) = true) :
    m.inverse? = none ∨ ∃ x, m.inverse? = some x ∧ ∃ k, ∀ l, Scalar.isNaN (x k l) = true := by
  unfold inverse?
  split
  · next m =>
    obtain rfl := Subsingleton.elim i 0
    obtain rfl := Subsingleton.elim j 0
    refine .inr ⟨_, inverse1?_of_isNaN laws h, 0, fun l => ?_⟩
    obtain rfl := Subsingleton.elim l 0
    exact laws.div (.inr h)
  · exact .inl (inverse2?_of_isNaN laws i j h)
  · exact .inl (inverse3?_of_isNaN laws i j h)
  · cases hx : m.eliminationInverse? with
    | none => exact .inl rfl
    | some x => exact .inr ⟨x, rfl, LinearSystem.exists_row_isNaN laws hx h⟩

end Square

namespace StoredMatrix

variable {m : StoredMatrix α} {i j : Fin m.numRow}

theorem squareInverse?_of_isNaN (h : Scalar.isNaN (m.toSquare i j) = true) :
    m.squareInverse? = none ∨
      ∃ x, m.squareInverse? = some x ∧ ∃ k, ∀ l, Scalar.isNaN (x k l) = true := by
  cases m with
  | small n hn b =>
    rw [toSquare_small] at h
    exact Square.inverse?_of_isNaN laws h
  | flat f =>
    cases hx : (flat f).squareInverse? with
    | none => exact .inl rfl
    | some x => exact .inr ⟨x, rfl, LinearSystem.exists_row_isNaN laws hx h⟩

theorem squareInverse?_eq_none_iff (h : Scalar.isNaN (m.toSquare i j) = true) :
    m.squareInverse? = none ↔ m.RefusesNaN := by
  cases m with
  | flat f => exact LinearSystem.solve?_eq_none
  | small n hn b =>
    rw [toSquare_small] at h
    match n, hn, b with
    | 1, hn, b =>
      rw [Subsingleton.elim (α := Fin 1) i 0, Subsingleton.elim (α := Fin 1) j 0] at h
      have hsome : (small 1 hn b).squareInverse? = _ := Square.inverse1?_of_isNaN laws h
      exact iff_of_false (by simp [hsome]) not_false
    | 2, hn, b => exact iff_of_true (Square.inverse2?_of_isNaN laws i j h) trivial
    | 3, hn, b => exact iff_of_true (Square.inverse3?_of_isNaN laws i j h) trivial
    | n + 4, hn, b =>
      have hread : (small (n + 4) hn b).toSquare = b := toSquare_small hn b
      change b.eliminationInverse? = none ↔ (small (n + 4) hn b).toSquare.HasNegligiblePivot
      rw [hread]
      exact LinearSystem.solve?_eq_none

/-- A square matrix with a coefficient that is not a number is refused, or the inverse that is
returned has a row without a number. Blocks of size one are never refused, blocks of sizes two and
three always. What is inverted by elimination is refused if a pivot is negligible or not a number;
in particular if such a coefficient stands in a row that has not been used when its column is
reached. -/
theorem inverse_of_isNaN_spec (m : StoredMatrix α) (hsquare : m.numRow = m.numCol)
    (i j : Fin m.numRow) (h : Scalar.isNaN (m.toSquare i j) = true) :
    (m.inverse = .error .nonInvertible ∨ ∃ x : Square m.numRow α, m.inverse = .ok (ofBlock x) ∧
      ∃ k, ∀ l, Scalar.isNaN (x k l) = true) ∧
    (m.inverse = .error .nonInvertible ↔ m.RefusesNaN) ∧
    ((∀ hn b, m ≠ small 1 hn b) → ∀ k l, k ≤ l →
      Scalar.isNaN (m.toSquare.reduced k l k) = true → m.RefusesNaN) := by
  have hrefused := inverse_refused_iff_squareInverse? hsquare
  refine ⟨?_, hrefused.trans (squareInverse?_eq_none_iff laws h), ?_⟩
  · rcases squareInverse?_of_isNaN laws h with hnone | ⟨x, hx, hrow⟩
    · exact .inl (hrefused.mpr hnone)
    · exact .inr ⟨x, inverse_eq_ok hsquare hx, hrow⟩
  · intro hsize k l hkl hnan
    exact refusesNaN_of_hasNegligiblePivot hsize (Square.hasNegligiblePivot_of_isNaN laws hkl hnan)

end StoredMatrix

end Laws

namespace StoredMatrix

/-- Elimination does not come back to the first row of a matrix that is the identity but for a value
beside the diagonal, held as a block of size four or as an array; a block of size two is refused,
and so is an array with such a value in its last row. -/
theorem inverse_of_isNaN_spec_hidden :
    let nan : Float := Scalar.nan
    let single : StoredMatrix Float := .small 1 (by decide) (.of1 nan)
    let plane : StoredMatrix Float := .small 2 (by decide) (.of2 1 nan 0 1)
    let space : StoredMatrix Float :=
      .small 4 (by decide) ⟨#v[1, nan, 0, 0, 0, 1, 0, 0, 0, 0, 1, 0, 0, 0, 0, 1]⟩
    let upper : StoredMatrix Float := .flat ⟨2, 2, #[1, nan, 0, 1]⟩
    let lower : StoredMatrix Float := .flat ⟨2, 2, #[1, 0, nan, 1]⟩
    (∃ x : Square 1 Float, single.inverse = .ok (ofBlock x) ∧
      ∃ k, ∀ l, Scalar.isNaN (x k l) = true) ∧
    plane.inverse = .error .nonInvertible ∧
    (∃ x : Square 4 Float, space.inverse = .ok (ofBlock x) ∧
      ∃ k, ∀ l, Scalar.isNaN (x k l) = true) ∧
    (∃ x : Square 2 Float, upper.inverse = .ok (ofBlock x) ∧
      ∃ k, ∀ l, Scalar.isNaN (x k l) = true) ∧
    lower.inverse = .error .nonInvertible := by
  intro nan single plane space upper lower
  have hsingle := inverse_of_isNaN_spec Double.propagatesNaN single rfl (0 : Fin 1) (0 : Fin 1)
    (by decide +kernel)
  have hplane := inverse_of_isNaN_spec Double.propagatesNaN plane rfl (0 : Fin 2) (1 : Fin 2)
    (by decide +kernel)
  have hspace := inverse_of_isNaN_spec Double.propagatesNaN space rfl (0 : Fin 4) (1 : Fin 4)
    (by decide +kernel)
  have hupper := inverse_of_isNaN_spec Double.propagatesNaN upper rfl (0 : Fin 2) (1 : Fin 2)
    (by decide +kernel)
  have hlower := inverse_of_isNaN_spec Double.propagatesNaN lower rfl (1 : Fin 2) (0 : Fin 2)
    (by decide +kernel)
  refine ⟨hsingle.1.resolve_left (hsingle.2.1.not.mpr not_false), hplane.2.1.mpr trivial,
    hspace.1.resolve_left (hspace.2.1.not.mpr ?_), hupper.1.resolve_left (hupper.2.1.not.mpr ?_),
    hlower.2.1.mpr (hlower.2.2 (fun hn b => by simp [lower]) (0 : Fin 2) (1 : Fin 2) (by decide)
      (by decide +kernel))⟩
  · change ¬ ∃ k : Fin 4, Scalar.vanishesBeside _ _ = true
    decide +kernel
  · change ¬ ∃ k : Fin 2, Scalar.vanishesBeside _ _ = true
    decide +kernel

end StoredMatrix

end Georeferencing
