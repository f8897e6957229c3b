import Georeferencing.Proofs.Matrix.Algebra

/-! # Elimination keeps the system

Each column of the elimination multiplies both sides of the system from the left by one and the
same matrix and makes one more column of the left side a column of the identity. When the last
column is done, the accumulated multiplier is a left inverse of the matrix that was given.
-/

namespace Georeferencing

variable {K : Type} [Field K] {n w : ℕ}

theorem Block.columnMagnitude_nonneg [LinearOrder K] [IsStrictOrderedRing K] {r c : ℕ}
    (b : Block r c K) (j : Fin c) : 0 ≤ b.columnMagnitude j := by
  rw [columnMagnitude]
  apply List.foldlRecOn (b.column j) _ le_rfl
  intro largest hlargest e _
  rw [Exact.max_eq]
  exact hlargest.trans (le_max_left _ _)

namespace LinearSystem

section Run

variable {α : Type} [Scalar α] {s t : LinearSystem n w α} {x : Block n w α} {m : ℕ}

/-- The coefficient by which row `k` is divided. -/
def pivot (s : LinearSystem n w α) (k : Fin n) : α := s.left (s.pivotRow k) k

theorem le_pivotRow (s : LinearSystem n w α) (k : Fin n) : k ≤ s.pivotRow k := by
  apply List.foldlRecOn _ _ le_rfl
  intro best hbest i hi
  split
  · exact of_decide_eq_true (List.mem_filter.mp hi).2
  · exact hbest

/-- One column of the elimination, whatever its pivot. -/
def eliminate (s : LinearSystem n w α) (k : Fin n) : LinearSystem n w α :=
  ((s.swapRows k (s.pivotRow k)).divideRow k (s.pivot k)).clearColumn k

/-- The system when the first `m` columns have been eliminated. -/
def after (s : LinearSystem n w α) (m : ℕ) : LinearSystem n w α :=
  ((List.finRange n).take m).foldl eliminate s

theorem take_finRange_succ (h : m < n) :
    (List.finRange n).take (m + 1) = (List.finRange n).take m ++ [⟨m, h⟩] := by
  rw [List.take_succ_eq_append_getElem (by rwa [List.length_finRange]), List.getElem_finRange]
  rfl

theorem after_succ (s : LinearSystem n w α) (h : m < n) :
    s.after (m + 1) = (s.after m).eliminate ⟨m, h⟩ := by
  rw [after, take_finRange_succ h, List.foldl_append]
  rfl

/-- What holds at the start and is kept by every column holds after any number of columns. -/
theorem after_induction {P : ℕ → LinearSystem n w α → Prop} (start : P 0 s) (hm : m ≤ n)
    (step : ∀ k : Fin n, k.val < m → P k (s.after k) → P (k + 1) ((s.after k).eliminate k)) :
    P m (s.after m) := by
  induction m with
  | zero => exact start
  | succ m ih =>
    rw [after_succ s hm]
    exact step ⟨m, hm⟩ (Nat.lt_succ_self m) (ih (by omega) fun k hk => step k (by omega))

/-- The elimination goes on as long as no pivot is negligible. -/
theorem foldlM_step?_eq_some (scale : Fin n → α) (hm : m ≤ n) :
    ((List.finRange n).take m).foldlM (step? scale) s = some t ↔
      t = s.after m ∧ ∀ k : Fin n, k.val < m →
        ¬ Scalar.vanishesBeside ((s.after k).pivot k) (scale k) = true := by
  induction m generalizing t with
  | zero =>
    change some s = some t ↔ t = s ∧ _
    rw [Option.some_inj, eq_comm]
    exact ⟨fun h => ⟨h, fun k hk => absurd hk (Nat.not_lt_zero k)⟩, And.left⟩
  | succ m ih =>
    rw [take_finRange_succ hm, List.foldlM_append, after_succ s hm]
    constructor
    · intro h
      obtain ⟨u, hu, ht⟩ := Option.bind_eq_some_iff.mp h
      obtain ⟨rfl, haccepted⟩ := (ih (by omega)).mp hu
      rw [List.foldlM_cons, step?] at ht
      split at ht
      · cases ht
      · next hpivot =>
        cases ht
        refine ⟨rfl, fun k hk => ?_⟩
        rcases Nat.lt_succ_iff_lt_or_eq.mp hk with hlt | rfl
        · exact haccepted k hlt
        · exact hpivot
    · rintro ⟨rfl, haccepted⟩
      have hbefore := (ih (by omega)).mpr ⟨rfl, fun k hk => haccepted k (by omega)⟩
      rw [hbefore]
      change step? scale (s.after m) ⟨m, hm⟩ >>= pure = _
      rw [bind_pure]
      exact if_neg (haccepted ⟨m, hm⟩ (Nat.lt_succ_self m))

theorem solve?_eq_some :
    s.solve? = some x ↔ (s.after n).right = x ∧ ∀ k : Fin n,
      ¬ Scalar.vanishesBeside ((s.after k).pivot k) (s.left.columnMagnitude k) = true := by
  have hscale : (Vector.ofFn s.left.columnMagnitude).get = s.left.columnMagnitude := by
    funext k
    exact Vector.getElem_ofFn k.isLt
  have hrun : ∀ t, (List.finRange n).foldlM (step? s.left.columnMagnitude) s = some t ↔
      t = s.after n ∧ ∀ k : Fin n,
        ¬ Scalar.vanishesBeside ((s.after k).pivot k) (s.left.columnMagnitude k) = true := by
    intro t
    have hall := foldlM_step?_eq_some (s := s) (t := t) s.left.columnMagnitude le_rfl
    rw [List.take_of_length_le (by simp)] at hall
    simpa only [Fin.is_lt, true_imp_iff] using hall
  rw [solve?, hscale, Option.map_eq_some_iff]
  simp only [hrun, and_assoc, exists_eq_left]
  exact and_comm

end Run

/-- The second system is the first one with both sides multiplied from the left by a matrix. -/
def Follows (s t : LinearSystem n w K) : Prop :=
  ∃ e : Matrix (Fin n) (Fin n) K,
    t.left.toMatrix = e * s.left.toMatrix ∧ t.right.toMatrix = e * s.right.toMatrix

theorem Follows.refl (s : LinearSystem n w K) : Follows s s :=
  ⟨1, (Matrix.one_mul _).symm, (Matrix.one_mul _).symm⟩

theorem Follows.trans {s t u : LinearSystem n w K} (hst : Follows s t) (htu : Follows t u) :
    Follows s u := by
  rcases hst with ⟨d, hdl, hdr⟩
  rcases htu with ⟨e, hel, her⟩
  use e * d
  constructor
  · rw [hel, hdl, Matrix.mul_assoc]
  · rw [her, hdr, Matrix.mul_assoc]

/-- A formula that combines rows with the same coefficients on both sides is a left
multiplication. -/
theorem follows_mapRows (s : LinearSystem n w K)
    (f : {c : ℕ} → Block n c K → Fin n → Fin c → K) (e : Matrix (Fin n) (Fin n) K)
    (hf : ∀ {c : ℕ} (b : Block n c K) (i : Fin n) (j : Fin c), f b i j = ∑ l, e i l * b l j) :
    Follows s (s.mapRows f) := by
  have hside : ∀ {c : ℕ} (b : Block n c K), (Block.ofFn (f b)).toMatrix = e * b.toMatrix := by
    intro c b
    ext i j
    rw [Block.toMatrix_ofFn, Matrix.of_apply, hf, Matrix.mul_apply]
    rfl
  exact ⟨e, hside s.left, hside s.right⟩

theorem follows_swapRows (s : LinearSystem n w K) (p q : Fin n) : Follows s (s.swapRows p q) := by
  refine s.follows_mapRows _
    (fun i l => if (if i = p then q else if i = q then p else i) = l then 1 else 0) ?_
  intro c b i j
  simp only [ite_mul, one_mul, zero_mul, Finset.sum_ite_eq, Finset.mem_univ, if_true]

/-- What holds after the columns before `k` are done: the system has been multiplied from the left,
and these columns are columns of the identity. -/
structure Reduced (s t : LinearSystem n w K) (k : ℕ) : Prop where
  follows : Follows s t
  unit : ∀ i j : Fin n, j.val < k → t.left i j = if i = j then 1 else 0

theorem reduced_start (s : LinearSystem n w K) : Reduced s s 0 where
  follows := .refl s
  unit _ _ h := by omega

variable {s t : LinearSystem n w K} {k : Fin n}

theorem Reduced.left_eq_one (h : Reduced s t n) : t.left.toMatrix = 1 := by
  ext i j
  rw [Block.toMatrix_apply, h.unit i j j.isLt, Matrix.one_apply]

theorem Reduced.swapRows (h : Reduced s t k) {p : Fin n} (hp : k ≤ p) :
    Reduced s (t.swapRows k p) k where
  follows := h.follows.trans (follows_swapRows t k p)
  unit i j hj := by
    rw [LinearSystem.swapRows, mapRows, Block.entry_ofFn, h.unit _ j hj]
    apply if_congr _ rfl rfl
    split_ifs with hik hip
    · omega
    · omega
    · rfl

variable [LinearOrder K]

theorem follows_divideRow (s : LinearSystem n w K) (k : Fin n) (divisor : K) :
    Follows s (s.divideRow k divisor) := by
  refine s.follows_mapRows _
    (fun i l => if i = l then (if i = k then divisor⁻¹ else 1) else 0) ?_
  intro c b i j
  simp only [ite_mul, one_mul, zero_mul, Finset.sum_ite_eq, Finset.mem_univ, if_true]
  by_cases h : i = k
  · rw [if_pos h, if_pos h, div_eq_inv_mul]
  · rw [if_neg h, if_neg h]

theorem follows_clearColumn (s : LinearSystem n w K) (k : Fin n) :
    Follows s (s.clearColumn k) := by
  refine s.follows_mapRows _
    (fun i l => (if i = l then 1 else 0) - (if k = l then (if i = k then 0 else s.left i k) else 0))
    ?_
  intro c b i j
  simp only [sub_mul, Finset.sum_sub_distrib, ite_mul, one_mul, zero_mul, Finset.sum_ite_eq,
    Finset.mem_univ, if_true]
  by_cases hi : i = k
  · simp [hi]
  · by_cases hz : s.left i k = 0
    · simp [hi, hz]
    · simp [hi, hz]

theorem Reduced.divideRow (h : Reduced s t k) (divisor : K) :
    Reduced s (t.divideRow k divisor) k where
  follows := h.follows.trans (follows_divideRow t k divisor)
  unit i j hj := by
    rw [LinearSystem.divideRow, mapRows, Block.entry_ofFn, h.unit i j hj]
    by_cases hik : i = k
    · rw [if_pos hik, if_neg (by omega), zero_div]
    · rw [if_neg hik]

theorem Reduced.clearColumn (h : Reduced s t k) (hk : t.left k k = 1) :
    Reduced s (t.clearColumn k) (k + 1) where
  follows := h.follows.trans (follows_clearColumn t k)
  unit i j hj := by
    rw [LinearSystem.clearColumn, mapRows, Block.entry_ofFn]
    by_cases hjk : j = k
    · subst hjk
      by_cases hi : i = j
      · simp [hi, hk]
      · by_cases hz : t.left i j = 0
        · simp [hi, hz]
        · simp [hi, hz, hk]
    · have hlt : j.val < k := by omega
      have hkj : t.left k j = 0 := by rw [h.unit k j hlt, if_neg (by omega)]
      rw [hkj, mul_zero, sub_zero, ite_self, h.unit i j hlt]

/-- One column of the elimination completes one more column. -/
theorem Reduced.eliminate (h : Reduced s t k) (hpivot : t.pivot k ≠ 0) :
    Reduced s (t.eliminate k) (k + 1) := by
  apply ((h.swapRows (t.le_pivotRow k)).divideRow _).clearColumn
  rw [LinearSystem.divideRow, mapRows, Block.entry_ofFn, if_pos rfl, LinearSystem.swapRows,
    mapRows, Block.entry_ofFn, if_pos rfl]
  exact div_self hpivot

theorem reduced_after {m : ℕ} (hm : m ≤ n)
    (h : ∀ k : Fin n, k.val < m → (s.after k).pivot k ≠ 0) : Reduced s (s.after m) m := by
  apply after_induction (P := fun m u => Reduced s u m) (reduced_start s) hm
  intro k hk hbefore
  exact hbefore.eliminate (h k hk)

variable [IsStrictOrderedRing K]

/-- The solution is the right side multiplied by a left inverse of the left side. -/
theorem solve_spec {x : Block n w K} (h : s.solve? = some x) :
    ∃ e : Matrix (Fin n) (Fin n) K,
      e * s.left.toMatrix = 1 ∧ x.toMatrix = e * s.right.toMatrix := by
  obtain ⟨rfl, haccepted⟩ := solve?_eq_some.mp h
  have hr : Reduced s (s.after n) n := by
    apply reduced_after le_rfl
    intro k _
    exact Exact.ne_zero_of_vanishesBeside (s.left.columnMagnitude_nonneg k) (haccepted k)
  rcases hr.follows with ⟨e, hleft, hright⟩
  exact ⟨e, hleft.symm.trans hr.left_eq_one, hright⟩

end LinearSystem

end Georeferencing
